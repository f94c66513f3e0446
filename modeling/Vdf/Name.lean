import Mathlib.Data.List.Basic

/-!
# File names

A `char *` is the bytes before its NUL. `calc_shortname` derives the 8.3 name of a file from its long
name: the base up to the last dot and the extension are cut, spaces are dropped, some characters
replaced. When the base fills its eight characters, its end becomes a number that no entry of the
directory has.
-/

namespace Vdf

/-! ## Characters -/

/-- `toupper`, in the C locale. -/
def toupper (c : UInt8) : UInt8 := if 0x61 ≤ c ∧ c ≤ 0x7a then c - 0x20 else c

/-- `tolower`, in the C locale. -/
def tolower (c : UInt8) : UInt8 := if 0x41 ≤ c ∧ c ≤ 0x5a then c + 0x20 else c

/-- `strcasecmp` is 0. -/
def sameName (a b : List UInt8) : Bool := a.map tolower == b.map tolower

/-- `filename_valid`. -/
def filenameValid (name : List UInt8) : Bool :=
  -- None of `/\:?*"<>|`.
  !name.isEmpty && name.all fun c => c ∉ [0x2f, 0x5c, 0x3a, 0x3f, 0x2a, 0x22, 0x3c, 0x3e, 0x7c]

/-- `stuff_dosname`: what it appends for `s`. -/
def stuffDosname (s : UInt8) : List UInt8 :=
  if s = 0x20 then []
  -- One of `+,;=[]"/.`.
  else if s ∈ [0x2b, 0x2c, 0x3b, 0x3d, 0x5b, 0x5d, 0x22, 0x2f, 0x2e] then [0x5f]
  else [toupper s]

/-! ## The short name -/

/-- The name up to its last dot, and the extension behind that. -/
def splitLastDot : List UInt8 → List UInt8 × Option (List UInt8)
  | [] => ([], none)
  | c :: l =>
    match splitLastDot l with
    | (base, some ext) => (c :: base, some ext)
    | (base, none) => if c = 0x2e then ([], some l) else (c :: base, none)

/-- The base of the short name, in front of `dp`. -/
def dosBase (name : List UInt8) : List UInt8 := ((splitLastDot name).1.take 8).flatMap stuffDosname

/-- The extension of the short name, with its dot. -/
def dosExt (name : List UInt8) : List UInt8 :=
  match (splitLastDot name).2 with
  | some ext => 0x2e :: (ext.take 3).flatMap stuffDosname
  | none => []

/-- The digits of `ind` from the right. The source writes the fifth one twice. -/
def tailDigits (ind : Nat) : List UInt8 :=
  let digit (n : Nat) : UInt8 := UInt8.ofNat (ind / n % 10) + 0x30
  [digit 1] ++ (if 10 ≤ ind then [digit 10] else []) ++ (if 100 ≤ ind then [digit 100] else []) ++
    (if 1000 ≤ ind then [digit 1000] else []) ++ (if 10000 ≤ ind then [digit 10000] else []) ++
    (if 10000 ≤ ind then [digit 10000] else []) ++ (if 100000 ≤ ind then [digit 100000] else [])

/-- The base with the tail `~ind` at its end. -/
def tailBase (base : List UInt8) (ind : Nat) : List UInt8 :=
  base.take (base.length - (tailDigits ind).length - 1) ++ 0x7e :: (tailDigits ind).reverse

/-- `calc_shortname` on a name: the short name and `VFF_LONGNAME`, or -1 when each of the 999999
numbers is taken. -/
def shortnameOf (taken : List UInt8 → Bool) (name : List UInt8) : Option (List UInt8 × Bool) :=
  let base := dosBase name
  let ext := dosExt name
  if base ++ ext = name then some (base ++ ext, false)
  else if 8 ≤ base.length then
    ((List.range' 1 999999).find? fun ind => !taken (tailBase base ind ++ ext)).map
      fun ind => (tailBase base ind ++ ext, true)
  else some (base ++ ext, true)

end Vdf
