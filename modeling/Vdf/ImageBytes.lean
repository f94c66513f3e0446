import Vdf.Image
import Vdf.ReadBytes
import Vdf.Lib.Fallible
import Vdf.Lib.Shown

/-!
# Ranges of bytes of an image

The image of a drive has no byte where no generator stores one. A reader of sectors that shows such
an image (`Showing`), where it returns, makes `vdf_read_bytes` show it: each byte of a range that
the image has arrives, whatever lay in the buffer and on the stack.
-/

namespace Vdf

open Word Buffer

/-- Where the reader returns, it has read all sectors of a request and they show the image. Elsewhere
its fault is one of `E`. -/
def Showing (read : SectorReader) (image : Nat → Option UInt8) (bps sectors : Nat)
    (E : Fault → Prop) : Prop :=
  ∀ sector cnt m p, sector < 2 ^ 32 → cnt < 2 ^ 31 → sector + cnt ≤ sectors →
    Ends (read sector cnt m p) (fun r => r.1 = cnt ∧
      r.2.Shows p (cnt * bps) (fun j => image (sector * bps + j)) ∧
      AgreeOutside p (cnt * bps) m r.2) E

/-- The first `rcnt` bytes of the range are shown, and what is left starts a sector. -/
structure Shown (image : Nat → Option UInt8) (bps p off n : Nat) (s : BytesState) : Prop where
  shows : s.m.Shows p s.rcnt fun j => image (off + j)
  buff : s.buff = p + s.rcnt
  cnt : s.rcnt + s.cnt = n
  aligned : s.cnt ≠ 0 → off + s.rcnt = s.soff * bps
  soff : s.soff < 2 ^ 32

section Range

variable {read : SectorReader} {image : Nat → Option UInt8} {bps sectors p off n : Nat}
  {s : BytesState} {E : Fault → Prop} (hread : Showing read image bps sectors E)
  (hsectors : sectors < 2 ^ 32) (hend : off + n ≤ sectors * bps)

/-- What is left of the range lies in the image. -/
theorem Shown.fits (h : Shown image bps p off n s) (hend : off + n ≤ sectors * bps)
    (hcnt : s.cnt ≠ 0) :
    s.soff * bps + s.cnt ≤ sectors * bps ∧ s.soff < sectors := by
  have hal := h.aligned hcnt
  have hsum := h.cnt
  exact ⟨by omega, Nat.lt_of_mul_lt_mul_right (a := bps) (by omega)⟩

include hread hsectors hend

/-- The head. -/
theorem readHead_showing {k : Nat} (hbps : bps = 2 ^ k) (hn : n ≠ 0) (m sbuff : Buffer) :
    Ends (readHead read bps off ⟨u32 (off / bps), p, 0, n, m, sbuff⟩)
      (fun r => r.1 = none ∧ Shown image bps p off n r.2) E := by
  have hpos : 0 < bps := by rw [hbps]; exact Nat.two_pow_pos k
  have hmask : off &&& (bps - 1) = off % bps := by rw [hbps, Nat.and_two_pow_sub_one_eq_mod]
  have hdiv := Nat.div_add_mod off bps
  have hlt := Nat.mod_lt off hpos
  rw [Nat.mul_comm] at hdiv
  have hsoff : off / bps < sectors := (Nat.div_lt_iff_lt_mul hpos).mpr (by omega)
  rw [readHead, hmask, u32_of_lt (by omega)]
  dsimp only
  by_cases hdoff : off % bps = 0
  · rw [if_pos hdoff]
    refine Ends.ok ⟨rfl, fun j hj => absurd hj (Nat.not_lt_zero j), rfl, Nat.zero_add n, ?_, ?_⟩
    · intro _
      dsimp only
      omega
    · dsimp only
      omega
  · rw [if_neg hdoff]
    refine Ends.bind (hread (off / bps) 1 sbuff 0 (by omega) (by decide) (by omega)) ?_
    rintro ⟨r, sbuff'⟩ ⟨hr, hshows, -⟩
    dsimp only at hr hshows ⊢
    rw [if_neg (by omega)]
    refine Ends.ok ⟨rfl, ?_, ?_, ?_, fun hcnt => ?_, u32_lt _⟩
    · dsimp only
      rw [Nat.zero_add]
      have hpart := hshows.slice (o := off % bps) (k := min (bps - off % bps) n) (by omega)
      rw [Nat.zero_add] at hpart
      refine (hpart.copy_slice m p).congr fun j _ => ?_
      rw [← Nat.add_assoc, hdiv]
    · dsimp only
      omega
    · dsimp only
      omega
    · dsimp only at hcnt ⊢
      have hnext : (off / bps + 1) * bps < sectors * bps := by
        rw [Nat.succ_mul]
        omega
      have hnext := Nat.lt_of_mul_lt_mul_right hnext
      rw [u32_of_lt (by omega), Nat.succ_mul]
      omega

/-- The whole sectors. -/
theorem readWhole_showing (hpos : 0 < bps) (hn : n / bps < 2 ^ 31) (h : Shown image bps p off n s) :
    Ends (readWhole read bps s)
      (fun r => r.1 = none ∧ Shown image bps p off n r.2 ∧ r.2.cnt < bps) E := by
  have hsum := h.cnt
  have hdiv := Nat.div_add_mod s.cnt bps
  have hlt := Nat.mod_lt s.cnt hpos
  have hwant : s.cnt / bps < 2 ^ 31 := Nat.lt_of_le_of_lt (Nat.div_le_div_right (by omega)) hn
  rw [Nat.mul_comm] at hdiv
  rw [readWhole]
  dsimp only
  by_cases hzero : s.cnt / bps = 0
  · rw [if_pos hzero]
    rw [hzero, Nat.zero_mul, Nat.zero_add] at hdiv
    exact Ends.ok ⟨rfl, h, by dsimp only; omega⟩
  · have hcnt : s.cnt ≠ 0 := fun e => hzero (by rw [e, Nat.zero_div])
    have hal := h.aligned hcnt
    obtain ⟨hfit, -⟩ := h.fits hend hcnt
    have hin : s.soff + s.cnt / bps ≤ sectors := by
      refine Nat.le_of_mul_le_mul_right ?_ hpos
      rw [Nat.add_mul]
      omega
    rw [if_neg hzero, u32_of_lt (by omega)]
    refine Ends.bind (hread s.soff (s.cnt / bps) s.m s.buff h.soff hwant hin) ?_
    rintro ⟨r, m⟩ ⟨hr, hshows, hout⟩
    dsimp only at hr hshows hout ⊢
    subst hr
    have hne : ((s.cnt / bps : Nat) : Int) ≠ -1 :=
      ne_of_gt (Int.lt_of_lt_of_le (by decide) (Int.natCast_nonneg _))
    rw [if_neg hne, toSize_natCast (Nat.lt_trans hwant (by decide)), if_neg (Nat.lt_irrefl _)]
    rw [h.buff] at hshows hout
    refine Ends.ok ⟨rfl, ⟨?_, ?_, ?_, fun hrest => ?_, u32_lt _⟩, ?_⟩
    · refine h.shows.append hout (hshows.congr fun j _ => ?_)
      rw [← Nat.add_assoc, hal]
    · dsimp only
      rw [h.buff, Nat.add_assoc]
    · dsimp only
      omega
    · dsimp only at hrest ⊢
      have hnext : (s.soff + s.cnt / bps) * bps < sectors * bps := by
        rw [Nat.add_mul]
        omega
      rw [u32_of_lt (Nat.lt_trans (Nat.lt_of_mul_lt_mul_right hnext) hsectors), Nat.add_mul]
      omega
    · dsimp only
      omega

omit hsectors in
/-- The tail. -/
theorem readTail_showing (h : Shown image bps p off n s) (hlt : s.cnt < bps) :
    Ends (readTail read s)
      (fun r => r.1 = n ∧ r.2.Shows p n fun j => image (off + j)) E := by
  have hsum := h.cnt
  rw [readTail]
  by_cases hcnt : s.cnt = 0
  · rw [if_pos hcnt]
    obtain rfl : s.rcnt = n := by omega
    exact Ends.ok ⟨rfl, h.shows⟩
  · have hal := h.aligned hcnt
    obtain ⟨-, hin⟩ := h.fits hend hcnt
    rw [if_neg hcnt]
    refine Ends.bind (hread s.soff 1 s.sbuff 0 h.soff (by decide) hin) ?_
    rintro ⟨r, sbuff⟩ ⟨hr, hshows, -⟩
    dsimp only at hr hshows ⊢
    subst hr
    rw [if_neg (by omega), if_neg (by omega)]
    refine Ends.ok ⟨by dsimp only; omega, ?_⟩
    have hpart := (hshows.take (k := s.cnt) (by omega)).copy_slice s.m s.buff
    rw [h.buff] at hpart ⊢
    rw [← hsum]
    refine h.shows.append ?_ (hpart.congr fun j _ => ?_)
    · have hcopy := AgreeOutside.copy s.m (p + s.rcnt) (sbuff.slice 0 s.cnt)
      rwa [length_slice] at hcopy
    · rw [← Nat.add_assoc, hal]

/-- `vdf_read_bytes` shows any range of the image, where it returns. -/
theorem vdfReadBytes_showing {d : VdfDrive} (hd : d.isValid = true) (hb : d.bps = bps) {k : Nat}
    (hbps : bps = 2 ^ k) (hn : n / bps < 2 ^ 31) (sbuff m : Buffer) :
    Ends (vdfReadBytes read d sbuff off n m p)
      (fun r => r.1 = n ∧ r.2.Shows p n fun j => image (off + j)) E := by
  have hpos : 0 < bps := by rw [hbps]; exact Nat.two_pow_pos k
  rw [vdfReadBytes, hd, hb, if_neg (by simp)]
  by_cases h0 : n = 0
  · rw [if_pos h0]
    subst h0
    exact Ends.ok ⟨rfl, fun j hj => absurd hj (Nat.not_lt_zero j)⟩
  · rw [if_neg h0]
    refine Ends.bind (readHead_showing hread hsectors hend hbps h0 m sbuff) ?_
    rintro ⟨r, s⟩ ⟨hr, hs⟩
    dsimp only at hr hs
    subst hr
    refine Ends.bind (readWhole_showing hread hsectors hend hpos hn hs) ?_
    rintro ⟨r, s'⟩ ⟨hr, hs', hlt⟩
    dsimp only at hr hs' hlt
    subst hr
    exact readTail_showing hread hend hs' hlt

end Range

/-! ## A drive -/

section Drive

variable {d : VdfDrive} {rs : List FileRange} (h : Imaged d rs) {env : Readers}
  {content : FileId → List UInt8} (hE : env.Steady content)

include h hE

/-- The sectors of a drive with an image show it, unless a request leaves the array. -/
theorem Imaged.showing {E : Fault → Prop}
    (hleave : ∀ s n, s + n ≤ d.allSectors → ¬ FatsStay d rs s n → ∀ f, E f) :
    Showing (driveReader env d) (driveImage d content) d.bps d.allSectors E := by
  intro sector cnt m p hs hn hin
  by_cases hfats : FatsStay d rs sector cnt
  · obtain ⟨calls, hrun⟩ := h.reads hE hs hn hin hfats m p
    rw [driveReader, hrun]
    refine Ends.ok ⟨rfl, ?_, ?_⟩
    · exact shows_overlay m p _ _
    · dsimp only
      exact .overlay m p _ _
  · have hpos : 0 < cnt := by
      rcases Nat.eq_zero_or_pos cnt with rfl | hpos
      · exact absurd ⟨fun hlt => by omega, fun hlt => by omega⟩ hfats
      · exact hpos
    obtain ⟨f, hf⟩ := vdfReadSectors_error h.created h.known h.ranged h.valid hs (by omega) hpos
      hfats env m p
    rw [driveReader, hf]
    exact Ends.error (hleave sector cnt hin hfats f)

end Drive

end Vdf
