import Virthttp.Handler

namespace Virthttp

open Backtrack

structure Response where
  status : ℕ
  version : ℕ
  server : Str
  contentType : Str
  contentEncoding : Option Str
  contentLength : ℕ
  packetId : Option Str
  keepAlive : Bool
  body : Str

/-- The libraries around the handling of JSON: the version string and the keep-alive rule of
Beast, whether `atof` reads a weight as zero, and the two formats of libdeflate, which give
nothing back where they fail. -/
structure Libraries where
  rapidjson : Rapidjson
  beastVersion : Str
  keepAlive : ℕ → List (Str × Str) → Bool
  zeroWeight : Str → Bool
  gzip : Str → Option Str
  zlib : Str → Option Str

def weightPattern : Re Char :=
  .seq (.cls (fun c => c == '0' || c == '1'))
    (.seq (.opt (.cls (fun _ => true))) (.opt (.many digitChar 1 none)))

/-- `([a-z]+|\*)(?:;q=([0-1].?(?:[\d]+)?)?)?(?:,\s*)?` -/
def weightedEncodingsPattern : Re Char :=
  .seq (.group 1 (.alt (.many (fun c => 'a' ≤ c && c ≤ 'z') 1 none) (.cls (· == '*'))))
    (.seq (.opt (.seq (.cls (· == ';')) (.seq (.cls (· == 'q')) (.seq (.cls (· == '='))
      (.opt (.group 2 weightPattern))))))
    (.opt (.seq (.cls (· == ',')) (.many isSpace 0 none))))

def acceptedValues (libs : Libraries) (inAlgs : Str) : List (Str × Bool) :=
  (range weightedEncodingsPattern inAlgs).map fun c =>
    (captured c 1, ((c.get 2).map libs.zeroWeight).getD false)

/-- What the last mention of an encoding says. -/
def acceptedWeight (accepted : List (Str × Bool)) (name : Str) : Option Bool :=
  (accepted.reverse.find? (fun e => e.1 == name)).map Prod.snd

def compressWith (compress : Str → Option Str) (encoding : String) (res : Response) : Response :=
  match compress res.body with
  | none => res
  | some body => { res with body := body, contentEncoding := some (lit encoding) }

def handleCompression (libs : Libraries) (inHead : List (Str × Str)) (res : Response) : Response :=
  let inAlgs := fieldOf inHead (lit "Accept-Encoding")
  if inAlgs = [] then res
  else
    let accepted := acceptedValues libs inAlgs
    if acceptedWeight accepted (lit "identity") = some true then res
    else if (acceptedWeight accepted (lit "gzip")).isSome then compressWith libs.gzip "gzip" res
    else if (acceptedWeight accepted (lit "deflate")).isSome then
      compressWith libs.zlib "deflate" res
    else res

/-- What no encoding changes of a response is not changed by the choice of one. -/
theorem handleCompression_keeps {β : Type} {f : Response → β} {res : Response}
    (hf : ∀ compress encoding, f (compressWith compress encoding res) = f res)
    (libs : Libraries) (inHead : List (Str × Str)) :
    f (handleCompression libs inHead res) = f res := by
  unfold handleCompression
  simp only [apply_ite f, hf, ite_self]

/-- The status is not touched. -/
theorem handleCompression_status (libs : Libraries) (inHead : List (Str × Str)) (res : Response) :
    (handleCompression libs inHead res).status = res.status := by
  apply handleCompression_keeps (f := Response.status)
  intro compress encoding
  unfold compressWith
  split <;> rfl

end Virthttp
