import OrkDriver.Npu.Soc

/-!
The one-page header of a persisted weight (`core/packhdr.c`): stamped by every dump, checked by every loader.
-/

namespace OrkDriver.Pack

open OrkDriver.Npu

/-- The dtypes of `internal.h`. -/
inductive Dt
  | f16 | i8 | i4
  deriving DecidableEq

def Dt.code : Dt → UInt32
  | .f16 => 0
  | .i8 => 1
  | .i4 => 2

/-- `ork_pack_hdr`. -/
structure PackHdr where
  magic : UInt32
  fmt : UInt32
  capid : UInt32
  dtype : UInt32
  K : Nat
  N : Nat
  hdrBytes : Nat
  flags : UInt32
  soc : List Char
  deriving DecidableEq

def orkPackMagic : UInt32 := 0x4b50414f

def orkPackHdrBytes : Nat := 4096

def orkPackFormatVersion : UInt32 := 1

def orkPackCapsRule : UInt32 := 1

def orkF16MmaxRule : UInt32 := 2

/-- One byte of the FNV-1a hash. -/
def mixByte (h b : UInt32) : UInt32 := (h ^^^ b) * 16777619

/-- `MIX`: the four bytes of a word, low byte first. -/
def mixWord (h v : UInt32) : UInt32 := ([0, 8, 16, 24] : List UInt32).foldl (fun h b => mixByte h ((v >>> b) &&& 0xff)) h

/-- `orki_pack_capid`. -/
def orkiPackCapid (s : Soc) : UInt32 :=
  let words := [orkPackCapsRule, orkF16MmaxRule, orkPackFormatVersion, .ofNat s.ks, .ofNat s.nmax, .ofNat s.cbufElems,
    .ofNat s.cores]
  let h := (s.id.map fun ch => UInt32.ofNat ch.toNat).foldl mixByte (words.foldl mixWord 2166136261)
  if h = 0 then 1 else h

theorem orkiPackCapid_ne : orkiPackCapid socRk3588 ≠ orkiPackCapid socRk3576 := by decide

/-- Among the chips of the registry the id tells one from the other. -/
theorem orkiPackCapid_inj {s t : Soc} (hs : s ∈ socTable) (ht : t ∈ socTable)
    (h : orkiPackCapid s = orkiPackCapid t) : s = t := by
  simp only [socTable, List.mem_cons, List.not_mem_nil, or_false] at hs ht
  rcases hs with rfl | rfl <;> rcases ht with rfl | rfl
  · rfl
  · exact absurd h orkiPackCapid_ne
  · exact absurd h orkiPackCapid_ne.symm
  · rfl

/-- `orki_pack_stamp`. -/
def orkiPackStamp (c : OrkNpu) (dt : Dt) (K N : Nat) : PackHdr where
  magic := orkPackMagic
  fmt := orkPackFormatVersion
  capid := orkiPackCapid c.soc
  dtype := dt.code
  K := K
  N := N
  hdrBytes := orkPackHdrBytes
  flags := 0
  soc := c.soc.id

inductive PackErr
  | short | unstamped | format | caps | shape
  deriving DecidableEq

/-- `orki_pack_check` on a blob of `n` bytes that starts with `h`; `none` is 0. -/
def orkiPackCheck (c : OrkNpu) (h : PackHdr) (n : Nat) (dt : Dt) (K N : Nat) : Option PackErr :=
  if n < orkPackHdrBytes then some .short
  else if h.magic ≠ orkPackMagic then some .unstamped
  else if h.fmt ≠ orkPackFormatVersion then some .format
  else if h.capid ≠ orkiPackCapid c.soc then some .caps
  else if h.hdrBytes ≠ orkPackHdrBytes then some .format
  else if h.dtype ≠ dt.code ∨ h.K ≠ K ∨ h.N ≠ N then some .shape
  else none

/-- A stamped blob passes exactly where the capability ids agree. -/
theorem orkiPackCheck_stamp (c c' : OrkNpu) (dt : Dt) (K N n : Nat) (hn : orkPackHdrBytes ≤ n) :
    orkiPackCheck c' (orkiPackStamp c dt K N) n dt K N = none ↔ orkiPackCapid c.soc = orkiPackCapid c'.soc := by
  simp [orkiPackCheck, orkiPackStamp, Nat.not_lt.mpr hn]

end OrkDriver.Pack
