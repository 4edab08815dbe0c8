import Virthttp.Listings

namespace Virthttp

open Program

/-- `VIR_CPU_MAPLEN` -/
def virCpuMaplen (cpu : ℕ) : ℕ := (cpu + 7) / 8

/-- A buffer that libvirt is given, and what it is told about it: it may fill so many maps of so
many bytes each. -/
structure CpuMapCall where
  length : ℕ
  ncpumaps : ℕ
  maplen : ℕ

abbrev VirVcpuPinInfo := CpuMapCall → Slots (BitVec 8) → ℤ × Slots (BitVec 8)

abbrev VirVcpus (α : Type) :=
  CpuMapCall → Slots α → Slots (BitVec 8) → ℤ × Slots α × Slots (BitVec 8)

structure Vcpus (α : Type) where
  infos : Slots α
  cpumaps : Slots (BitVec 8)
  cpumapSize : ℕ

namespace Domain

/-- The state records the calls. -/
def getVcpuPinInfo (lib : VirVcpuPinInfo) (nrVirtCpu : BitVec 16) :
    Prog (List CpuMapCall) Thrown (Option (Slots (BitVec 8))) :=
  Light.wrapOparmOwningFillAutodestroyableArr (pure (nrVirtCpu.toNat : ℤ)) fun ptr => do
    let n := ptr.length
    let call : CpuMapCall := ⟨ptr.length, n, virCpuMaplen n⟩
    modify (· ++ [call])
    return lib call ptr

def getVcpus {α : Type} (lib : VirVcpus α) (nrVirtCpu : BitVec 16) :
    Prog (List CpuMapCall) Thrown (Option (Vcpus α)) := do
  let nvcpu := nrVirtCpu.toNat
  let cpumapSize := virCpuMaplen nvcpu
  let infos ← resize nvcpu
  let cpumaps ← resize (cpumapSize * nvcpu)
  let call : CpuMapCall := ⟨cpumaps.length, nvcpu, virCpuMaplen nvcpu⟩
  modify (· ++ [call])
  let (res, infos, cpumaps) := lib call infos cpumaps
  return if 0 ≤ res then some ⟨infos, cpumaps, cpumapSize⟩ else none

end Domain

structure CpuMapCall.Fits (c : CpuMapCall) (n : ℕ) : Prop where
  ncpumaps : c.ncpumaps = n
  maplen : c.maplen = virCpuMaplen n
  room : n * virCpuMaplen n ≤ c.length

variable {α : Type}

/-- The calls that the two functions make for the same number of CPUs fit and agree. -/
structure CpuMapsFit (lib : VirVcpuPinInfo) (lib' : VirVcpus α) (n : BitVec 16) : Prop where
  pinInfo : ∀ c ∈ (Domain.getVcpuPinInfo lib n []).2, c.Fits n.toNat
  vcpus : ∀ c ∈ (Domain.getVcpus lib' n []).2, c.Fits n.toNat
  agree : ∀ c ∈ (Domain.getVcpuPinInfo lib n []).2, ∀ d ∈ (Domain.getVcpus lib' n []).2,
    c.length = d.length

theorem toNat_small (n : BitVec 16) : n.toNat < 2^31 := by
  have hn := n.isLt
  omega

/-- The wrapper makes the buffer as long as there are CPUs. -/
theorem getVcpuPinInfo_calls (lib : VirVcpuPinInfo) (n : BitVec 16) :
    (Domain.getVcpuPinInfo lib n []).2 =
      if n.toNat = 0 then [] else [⟨n.toNat, n.toNat, virCpuMaplen n.toNat⟩] := by
  unfold Domain.getVcpuPinInfo Light.wrapOparmOwningFillAutodestroyableArr
  rw [countThenFill_counted (toNat_small n)]
  by_cases hn : n.toNat = 0
  · rw [if_pos hn, if_pos hn]
    rfl
  · rw [if_neg hn, if_neg hn]
    change [CpuMapCall.mk (List.replicate n.toNat none).length (List.replicate n.toNat none).length
      (virCpuMaplen (List.replicate n.toNat none).length)] = _
    rw [List.length_replicate]

theorem getVcpus_calls (lib : VirVcpus α) (n : BitVec 16) :
    (Domain.getVcpus lib n []).2 =
      [⟨virCpuMaplen n.toNat * n.toNat, n.toNat, virCpuMaplen n.toNat⟩] := by
  have hmaps : virCpuMaplen n.toNat * n.toNat < 2^31 := by
    have hn := n.isLt
    have hlen : virCpuMaplen n.toNat ≤ 2^13 := by
      rw [virCpuMaplen]
      omega
    calc
      virCpuMaplen n.toNat * n.toNat ≤ 2^13 * 2^16 := Nat.mul_le_mul hlen hn.le
      _ < 2^31 := by decide
  unfold Domain.getVcpus
  rw [resize_small (toNat_small n), pure_andThen, resize_small hmaps, pure_andThen,
    List.length_replicate]
  rfl

/-- One byte a CPU is enough for the maps up to eight CPUs. -/
theorem maps_le_iff (n : ℕ) : n * virCpuMaplen n ≤ n ↔ n ≤ 8 := by
  rw [virCpuMaplen]
  constructor
  · intro hle
    by_contra hgt
    have htwo : 2 ≤ (n + 7) / 8 := by omega
    have hdouble : n * 2 ≤ n * ((n + 7) / 8) := Nat.mul_le_mul_left n htwo
    omega
  · intro hle
    have hone : (n + 7) / 8 ≤ 1 := by omega
    calc
      n * ((n + 7) / 8) ≤ n * 1 := Nat.mul_le_mul_left n hone
      _ = n := Nat.mul_one n

/-- The buffer of `getVcpus` always fits. -/
theorem getVcpus_fits (lib : VirVcpus α) (n : BitVec 16) :
    ∀ c ∈ (Domain.getVcpus lib n []).2, c.Fits n.toNat := by
  intro c hc
  rw [getVcpus_calls, List.mem_singleton] at hc
  rw [hc]
  exact ⟨rfl, rfl, (Nat.mul_comm _ _).le⟩

/-- The buffers fit and agree for at most eight CPUs. -/
theorem cpuMapsFit_iff (lib : VirVcpuPinInfo) (lib' : VirVcpus α) (n : BitVec 16) :
    CpuMapsFit lib lib' n ↔ n.toNat ≤ 8 := by
  constructor
  · intro hfit
    by_contra hgt
    have hpos : ¬n.toNat = 0 := by omega
    have hpin := hfit.pinInfo
    rw [getVcpuPinInfo_calls, if_neg hpos] at hpin
    have hroom := (hpin _ (List.mem_singleton_self _)).room
    exact hgt ((maps_le_iff n.toNat).mp hroom)
  · intro hle
    have hroom := (maps_le_iff n.toNat).mpr hle
    refine ⟨?_, getVcpus_fits lib' n, ?_⟩
    · intro c hc
      rw [getVcpuPinInfo_calls] at hc
      split at hc
      · cases hc
      · rw [List.mem_singleton.mp hc]
        exact ⟨rfl, rfl, hroom⟩
    · intro c hc d hd
      rw [getVcpuPinInfo_calls] at hc
      rw [getVcpus_calls, List.mem_singleton] at hd
      split at hc
      · cases hc
      · rename_i hpos
        have hlen : virCpuMaplen n.toNat = 1 := by
          rw [virCpuMaplen]
          omega
        rw [List.mem_singleton.mp hc, hd, hlen, Nat.one_mul]

/-- Nine virtual CPUs: nine bytes for nine maps of two bytes. -/
theorem nine_cpus_overflow :
    ¬CpuMapsFit (fun _ slots => (0, slots)) (fun _ infos maps => ((0, infos, maps) :
      ℤ × Slots Unit × Slots (BitVec 8))) 9 := by
  intro hfit
  have hpin := hfit.pinInfo
  rw [getVcpuPinInfo_calls] at hpin
  have hroom := (hpin _ (List.mem_singleton_self _)).room
  exact absurd hroom (by decide)

end Virthttp
