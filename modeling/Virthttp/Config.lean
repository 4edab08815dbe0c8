import Virthttp.Handler
import Virthttp.UrlPort

namespace Virthttp

open Fields

/-- `INIReader`: what a name of a section is read as, the last argument where it is not there. -/
structure INIReader where
  get : Str → Str → Str → Str
  getInteger : Str → Str → BitVec 64 → BitVec 64
  getBoolean : Str → Str → Bool → Bool

structure LoadedConfig extends IniConfig where
  connDRIV : Str
  connTRANS : Str
  connUNAME : Str
  connHOST : Str
  connPORT : Str
  connPATH : Str
  connEXTP : Str
  httpAddress : Str
  httpDocRoot : Str
  httpURI : Str
  httpPort : BitVec 64
  httpThreads : BitVec 64

namespace LoadedConfig

def buildConnURI (config : LoadedConfig) : LoadedConfig :=
  { config with
    connURI := config.connDRIV
      ++ (if config.connTRANS = [] then [] else '+' :: config.connTRANS)
      ++ lit "://"
      ++ (if config.connUNAME = [] then [] else config.connUNAME ++ ['@'])
      ++ config.connHOST
      ++ (if config.connPORT = [] then [] else ':' :: config.connPORT)
      ++ '/' :: config.connPATH
      ++ (if config.connEXTP = [] then [] else '?' :: config.connEXTP) }

def longToString (n : BitVec 64) : Str := (toString n.toInt).toList

def buildHttpURI (config : LoadedConfig) : LoadedConfig :=
  { config with
    httpURI := lit "http://" ++ (config.httpAddress ++ lit ":" ++ longToString config.httpPort) }

def defaultHttpAuthKey : Str := lit "123456789abcdefgh"

def init (reader : INIReader) : LoadedConfig :=
  buildHttpURI (buildConnURI
    { httpAddress := reader.get (lit "http_server") (lit "address") (lit "0.0.0.0")
      httpPort := reader.getInteger (lit "http_server") (lit "port") 8081
      httpDocRoot := reader.get (lit "http_server") (lit "doc_root") (lit ".")
      httpThreads := reader.getInteger (lit "http_server") (lit "threads") 1
      httpAuthKeyRequired := reader.getBoolean (lit "http_server") (lit "auth-key-required") true
      httpAuthKey := reader.get (lit "http_server") (lit "auth-key") defaultHttpAuthKey
      connDRIV := reader.get (lit "libvirtd") (lit "driver") (lit "qemu")
      connTRANS := reader.get (lit "libvirtd") (lit "transport") []
      connUNAME := reader.get (lit "libvirtd") (lit "username") []
      connHOST := reader.get (lit "libvirtd") (lit "hostname") []
      connPORT := reader.get (lit "libvirtd") (lit "port") []
      connPATH := reader.get (lit "libvirtd") (lit "path") (lit "system")
      connEXTP := reader.get (lit "libvirtd") (lit "extras") []
      connURI := []
      httpURI := [] })

/-- The port that `main` listens on: a `long` is converted to `unsigned short`. -/
def listenPort (config : LoadedConfig) : BitVec 16 := config.httpPort.setWidth 16

end LoadedConfig

/-- The parts of a connection URI,
`driver[+transport]://[username@][hostname][:port]/[path][?extraparameters]`. -/
structure ConnParts where
  driver : Str
  transport : Str
  username : Str
  hostname : Str
  port : Str
  path : Str
  extras : Str

def LoadedConfig.connParts (config : LoadedConfig) : ConnParts :=
  ⟨config.connDRIV, config.connTRANS, config.connUNAME, config.connHOST, config.connPORT,
    config.connPATH, config.connEXTP⟩

def cutUser (authority : Str) : Str × Str :=
  if '@' ∈ authority then cut '@' authority else ([], authority)

def readConnURI (uri : Str) : ConnParts :=
  let scheme := cut ':' uri
  let target := cut '/' (scheme.2.drop 2)
  let user := cutUser target.1
  { driver := (cut '+' scheme.1).1
    transport := (cut '+' scheme.1).2
    username := user.1
    hostname := (cut ':' user.2).1
    port := (cut ':' user.2).2
    path := (cut '?' target.2).1
    extras := (cut '?' target.2).2 }

/-- No part holds a separator that would end it, or that would start another one in it. -/
structure ConnParts.WellFormed (parts : ConnParts) : Prop where
  driver : ':' ∉ parts.driver ∧ '+' ∉ parts.driver
  transport : ':' ∉ parts.transport
  username : '/' ∉ parts.username ∧ '@' ∉ parts.username
  hostname : '/' ∉ parts.hostname ∧ ':' ∉ parts.hostname
  port : '/' ∉ parts.port
  noUser : parts.username = [] → '@' ∉ parts.hostname ∧ '@' ∉ parts.port
  path : '?' ∉ parts.path

namespace ConnParts

variable (parts : ConnParts)

def scheme : Str := parts.driver ++ withSep '+' parts.transport

def authority : Str :=
  (if parts.username = [] then [] else parts.username ++ ['@'])
    ++ (parts.hostname ++ withSep ':' parts.port)

def rest : Str := parts.path ++ withSep '?' parts.extras

def text : Str := parts.scheme ++ ':' :: '/' :: '/' :: (parts.authority ++ '/' :: parts.rest)

end ConnParts

theorem connURI_build (config : LoadedConfig) :
    config.buildConnURI.connURI = config.connParts.text := by
  have hopt (s : Char) (xs : Str) : (if xs = [] then [] else s :: xs) = withSep s xs := by
    unfold withSep
    congr
  have hmark (xs : Str) : lit "://" ++ xs = ':' :: '/' :: '/' :: xs := rfl
  simp only [LoadedConfig.buildConnURI, hopt]
  simp only [ConnParts.text, ConnParts.scheme, ConnParts.authority, ConnParts.rest,
    LoadedConfig.connParts, List.append_assoc, List.cons_append, hmark]
  rfl

theorem mem_withSep {s c : Char} {xs : Str} (hc : c ≠ s) : c ∈ withSep s xs ↔ c ∈ xs := by
  unfold withSep
  split
  · rename_i hxs
    simp [hxs]
  · simp [hc]

section Text

variable {parts : ConnParts}

theorem not_mem_scheme : ':' ∉ parts.scheme ↔ ':' ∉ parts.driver ∧ ':' ∉ parts.transport := by
  rw [ConnParts.scheme, List.mem_append, mem_withSep (by decide), not_or]

theorem not_mem_authority : '/' ∉ parts.authority ↔
    '/' ∉ parts.username ∧ '/' ∉ parts.hostname ∧ '/' ∉ parts.port := by
  rw [ConnParts.authority, List.mem_append, List.mem_append, mem_withSep (by decide), not_or,
    not_or]
  split
  · rename_i huser
    simp [huser]
  · simp

/-- The cuts of a text whose scheme and authority hold no separator. -/
theorem readConnURI_text (hscheme : ':' ∉ parts.scheme) (hauth : '/' ∉ parts.authority) :
    readConnURI parts.text =
      { driver := (cut '+' parts.scheme).1
        transport := (cut '+' parts.scheme).2
        username := (cutUser parts.authority).1
        hostname := (cut ':' (cutUser parts.authority).2).1
        port := (cut ':' (cutUser parts.authority).2).2
        path := (cut '?' parts.rest).1
        extras := (cut '?' parts.rest).2 } := by
  unfold readConnURI ConnParts.text
  rw [cut_append_cons hscheme]
  simp only [List.drop_succ_cons, List.drop_zero]
  rw [cut_append_cons hauth]

/-- The user name is found, where the at sign that ends it is the first one. -/
theorem cutUser_authority (huser : '@' ∉ parts.username)
    (hnone : parts.username = [] → '@' ∉ parts.hostname ∧ '@' ∉ parts.port) :
    cutUser parts.authority = (parts.username, parts.hostname ++ withSep ':' parts.port) := by
  by_cases h : parts.username = []
  · have hauth : parts.authority = parts.hostname ++ withSep ':' parts.port := by
      rw [ConnParts.authority, if_pos h, List.nil_append]
    have hnot : '@' ∉ parts.authority := by
      rw [hauth, List.mem_append, mem_withSep (by decide), not_or]
      exact hnone h
    rw [cutUser, if_neg hnot, h, hauth]
  · have hauth : parts.authority =
        parts.username ++ '@' :: (parts.hostname ++ withSep ':' parts.port) := by
      rw [ConnParts.authority, if_neg h, List.append_assoc, List.cons_append, List.nil_append]
    have hat : '@' ∈ parts.authority := by rw [hauth]; simp
    rw [cutUser, if_pos hat, hauth, cut_append_cons huser]

theorem mem_cutUser {c : Char} {xs : Str} (h : c ∈ (cutUser xs).1 ∨ c ∈ (cutUser xs).2) :
    c ∈ xs := by
  unfold cutUser at h
  split at h
  · exact h.elim mem_of_mem_cut_fst mem_of_mem_cut_snd
  · exact h.elim (fun hc => by cases hc) id

theorem at_not_mem_cutUser (xs : Str) : '@' ∉ (cutUser xs).1 := by
  unfold cutUser
  split
  · exact not_mem_cut
  · simp

theorem readConnURI_of_wellFormed (h : parts.WellFormed) : readConnURI parts.text = parts := by
  have hscheme : ':' ∉ parts.scheme := not_mem_scheme.mpr ⟨h.driver.1, h.transport⟩
  have hauth : '/' ∉ parts.authority :=
    not_mem_authority.mpr ⟨h.username.1, h.hostname.1, h.port⟩
  rw [readConnURI_text hscheme hauth, cutUser_authority h.username.2 h.noUser]
  simp only [ConnParts.scheme, ConnParts.rest]
  rw [cut_append_withSep h.driver.2, cut_append_withSep h.hostname.2, cut_append_withSep h.path]

/-- Without a user name an at sign would leave too little for the host and the port. -/
theorem no_at_sign (huser : parts.username = []) (hat : '@' ∈ parts.authority)
    (hcut : (cutUser parts.authority).1 = [])
    (hhost : (cut ':' (cutUser parts.authority).2).1 = parts.hostname)
    (hport : (cut ':' (cutUser parts.authority).2).2 = parts.port) : False := by
  rw [cutUser, if_pos hat] at hcut hhost hport
  have hauth : parts.authority = parts.hostname ++ withSep ':' parts.port := by
    rw [ConnParts.authority, if_pos huser, List.nil_append]
  have hprefix := cut_prefix ':' (cut '@' parts.authority).2
  rw [hhost, hport, ← hauth] at hprefix
  have hlen : (cut '@' parts.authority).2.length < parts.authority.length := by
    have hsplit : (cut '@' parts.authority).1 ++ parts.authority.dropWhile (· != '@') =
        parts.authority := List.takeWhile_append_dropWhile
    rw [hcut, List.nil_append] at hsplit
    have hpos : 0 < parts.authority.length := List.length_pos_of_mem hat
    rw [cut, hsplit, List.length_drop]
    omega
  have hle := hprefix.length_le
  omega

theorem wellFormed_of_readConnURI (h : readConnURI parts.text = parts) : parts.WellFormed := by
  have hdriver := congrArg ConnParts.driver h
  have htransport := congrArg ConnParts.transport h
  have husername := congrArg ConnParts.username h
  have hhostname := congrArg ConnParts.hostname h
  have hport := congrArg ConnParts.port h
  have hpath := congrArg ConnParts.path h
  have hscheme : ':' ∉ parts.driver ∧ ':' ∉ parts.transport := by
    rw [← hdriver, ← htransport]
    exact ⟨fun hm => not_mem_cut (mem_of_mem_cut_fst hm),
      fun hm => not_mem_cut (mem_of_mem_cut_snd hm)⟩
  have huser : '/' ∉ parts.username := by
    rw [← husername]
    exact fun hm => not_mem_cut (mem_cutUser (Or.inl hm))
  have hhost : '/' ∉ parts.hostname := by
    rw [← hhostname]
    exact fun hm => not_mem_cut (mem_cutUser (Or.inr (mem_of_mem_cut_fst hm)))
  have hportSlash : '/' ∉ parts.port := by
    rw [← hport]
    exact fun hm => not_mem_cut (mem_cutUser (Or.inr (mem_of_mem_cut_snd hm)))
  have hauth : '/' ∉ parts.authority := not_mem_authority.mpr ⟨huser, hhost, hportSlash⟩
  have hplus : '+' ∉ parts.driver := by
    rw [← hdriver]
    exact not_mem_cut
  have hat : '@' ∉ parts.username := by
    rw [← husername]
    exact at_not_mem_cutUser _
  have hcolon : ':' ∉ parts.hostname := by
    rw [← hhostname]
    exact not_mem_cut
  have hquestion : '?' ∉ parts.path := by
    rw [← hpath]
    exact not_mem_cut
  rw [readConnURI_text (not_mem_scheme.mpr hscheme) hauth] at husername hhostname hport
  have hnone (hnil : parts.username = []) : '@' ∉ parts.hostname ∧ '@' ∉ parts.port := by
    have hnot : '@' ∉ parts.authority := fun hmem =>
      no_at_sign hnil hmem (husername.trans hnil) hhostname hport
    rwa [ConnParts.authority, if_pos hnil, List.nil_append, List.mem_append,
      mem_withSep (by decide), not_or] at hnot
  exact ⟨⟨hscheme.1, hplus⟩, hscheme.2, ⟨huser, hat⟩, ⟨hhost, hcolon⟩, hportSlash, hnone,
    hquestion⟩

end Text

/-- Whatever is configured, the form of a connection URI gives every part back from the URI that
connections to libvirt are opened with if and only if no part holds a separator out of place. -/
theorem connURI_given_back (reader : INIReader) :
    let config := LoadedConfig.init reader
    readConnURI config.connURI = config.connParts ↔ config.connParts.WellFormed := by
  intro config
  have htext : config.connURI = config.connParts.text := connURI_build _
  rw [htext]
  exact ⟨wellFormed_of_readConnURI, readConnURI_of_wellFormed⟩

/-- A digit that `std::to_string` writes -/
theorem digitChar_of_isDigit {c : Char} (h : c.isDigit = true) : digitChar c = true := by
  simpa [digitChar, Char.isDigit, Char.le_def] using h

theorem longToString_digits {n : BitVec 64} (hn : 0 ≤ n.toInt) :
    LoadedConfig.longToString n = Nat.toDigits 10 n.toNat := by
  have hnat : n.toInt = (n.toNat : ℤ) := by
    rw [BitVec.toInt_eq_toNat_cond] at hn ⊢
    split at hn
    · rename_i hlt
      rw [if_pos hlt]
    · omega
  rw [LoadedConfig.longToString, hnat]
  exact Nat.toList_repr

/-- The digits of the port end at the null character behind them. -/
theorem readPort_toDigits (n : BitVec 64) (mem : Str) :
    readPort (Nat.toDigits 10 n.toNat ++ [] ++ Char.ofNat 0 :: mem) = n.setWidth 16 := by
  have hdigits : ∀ c ∈ Nat.toDigits 10 n.toNat, digitChar c = true := fun c hc =>
    digitChar_of_isDigit (Nat.isDigit_of_mem_toDigits (by decide) (by decide) hc)
  have htake : (Nat.toDigits 10 n.toNat ++ Char.ofNat 0 :: mem).takeWhile digitChar =
      Nat.toDigits 10 n.toNat := by
    rw [List.takeWhile_append_of_pos hdigits, List.takeWhile_cons_of_neg (by decide),
      List.append_nil]
  have hvalue : decimal (Nat.toDigits 10 n.toNat) = n.toNat := Nat.ofDigitChars_ten_toDigits
  apply BitVec.eq_of_toNat_eq
  rw [List.append_nil, readPort_toNat, htake, hvalue, BitVec.toNat_setWidth]
  have hlt := n.isLt
  congr 1
  omega

/-- The parser of URLs finds in the URI of the server the address and the port that it listens on,
for every address that is not empty and has no slash and every port that is not negative. -/
theorem httpURI_names_server (reader : INIReader) (mem : Str)
    (hne : (LoadedConfig.init reader).httpAddress ≠ [])
    (hslash : '/' ∉ (LoadedConfig.init reader).httpAddress)
    (hport : 0 ≤ (LoadedConfig.init reader).httpPort.toInt) :
    let config := LoadedConfig.init reader
    let url := URLParser.ofUrl (Char.ofNat 0 :: mem) config.httpURI
    url.scheme = lit "http" ∧ url.host = config.httpAddress ∧ url.port = config.listenPort ∧
      url.pathParts = [] := by
  intro config url
  let digits := Nat.toDigits 10 config.httpPort.toNat
  let authority := config.httpAddress ++ ':' :: digits
  have hdigits : ∀ c ∈ digits, digitChar c = true := fun c hc =>
    digitChar_of_isDigit (Nat.isDigit_of_mem_toDigits (by decide) (by decide) hc)
  have huri : config.httpURI = lit "http" ++ lit "://" ++ authority := by
    have htext : config.httpURI = lit "http://" ++
        (config.httpAddress ++ lit ":" ++ LoadedConfig.longToString config.httpPort) := rfl
    rw [htext, longToString_digits hport, List.append_assoc]
    rfl
  have hauthority : ∀ c ∈ authority, c ≠ '/' := by
    intro c hc
    rcases List.mem_append.mp hc with hc | hc
    · rintro rfl
      exact hslash hc
    · rcases List.mem_cons.mp hc with rfl | hc
      · decide
      · exact (digitChar_ne (hdigits c hc)).1
  have hstarts : hostStarts authority = true := by
    simpa using hostStarts_append (by simp [authority]) hauthority []
  have hsplit : splitScheme config.httpURI = (lit "http", authority ++ []) := by
    rw [huri, splitScheme_scheme (by decide), if_pos ⟨by decide, hstarts⟩, List.append_nil]
  have hend : EndsAuthority [] := by simp [EndsAuthority]
  obtain ⟨hparts, hbehind⟩ := urlParts_of_split hsplit (by simp [authority]) hauthority hend
  have hof : portOf authority = some digits := by
    have h := @portOf_digits config.httpAddress digits [] Nat.toDigits_ne_nil hdigits (by simp)
    rwa [List.append_nil, if_pos ⟨hne, rfl⟩] at h
  have hhost : hostOf authority = config.httpAddress :=
    (List.append_cancel_right (hostOf_portOf hof)).symm
  have hurl : url = URLParser.parseAll (Char.ofNat 0 :: mem)
    { URLParser.init with url := config.httpURI } := rfl
  rw [hurl, parseAll_eq]
  simp only [hparts, hbehind, hof, hhost]
  exact ⟨trivial, trivial, readPort_toDigits _ mem, rfl⟩

def emptyFile : INIReader :=
  ⟨fun _ _ default => default, fun _ _ default => default, fun _ _ default => default⟩

theorem httpURI_names_server_one :
    let url := URLParser.ofUrl (Char.ofNat 0 :: lit "8") (LoadedConfig.init emptyFile).httpURI
    url.host = lit "0.0.0.0" ∧ url.port = 8081 := by
  have h := httpURI_names_server emptyFile (lit "8") (by decide) (by decide) (by decide)
  exact ⟨h.2.1, h.2.2.1⟩

end Virthttp
