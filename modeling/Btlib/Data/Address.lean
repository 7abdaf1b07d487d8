import Btlib.Dups.Bytes
import Btlib.Machine.Free

namespace Btlib

section Address

variable [Build] {s s0 : St} {b b' o o' : Int}

-- What is just too large for a `BTint` turns negative.
theorem wrap_neg (hw : 0 < ZBPW) {i : Int} (h0 : BTINT_MAX < i) (h1 : i ≤ 2 * BTINT_MAX + 1) : wrap i < 0 := by
  have hpow : (2 : Nat) ^ (8 * ZBPW) = 2 * 2 ^ (8 * ZBPW - 1) := by
    rw [← pow_succ', Nat.sub_add_cancel (by omega)]
  have hmax : BTINT_MAX = ((2 ^ (8 * ZBPW - 1) : Nat) : Int) - 1 := by
    unfold BTINT_MAX
    push_cast
    rfl
  rw [hmax] at h0 h1
  rw [wrap, hpow]
  generalize (2 : Nat) ^ (8 * ZBPW - 1) = m at *
  have hmod : i % ((2 * m : Nat) : Int) = i := Int.emod_eq_of_lt (by omega) (by push_cast; omega)
  rw [Int.bmod_def, hmod, if_neg (by push_cast; omega)]
  push_cast
  omega

theorem two_blocks (hblk : (ZBLKSZ : Int) ≤ BTINT_MAX) : 2 * (ZBLKSZ : Int) ≤ BTINT_MAX + 1 := by
  have hmax : BTINT_MAX + 1 = ((2 ^ (8 * ZBPW - 1) : Nat) : Int) := by
    unfold BTINT_MAX
    push_cast
    omega
  rw [hmax]
  have hlt : ZBLKSZ < 2 ^ (8 * ZBPW - 1) := by
    have : (ZBLKSZ : Int) < ((2 ^ (8 * ZBPW - 1) : Nat) : Int) := by omega
    exact_mod_cast this
  have hle := (Nat.pow_lt_pow_iff_right Nat.one_lt_two).1 hlt
  have hpow : 2 * ZBLKSZ ≤ 2 ^ (8 * ZBPW - 1) := by
    rw [ZBLKSZ, ← pow_succ']
    exact Nat.pow_le_pow_right (by decide) hle
  exact_mod_cast hpow

-- The states that calls of `bgtfre` lead to.
inductive Takes (s0 : St) : St → Prop where
  | start : Takes s0 s0
  | step {s s' : St} {r : Int} (h : Takes s0 s) (hr : speak bgtfre s = .done (r, s')) : Takes s0 s'

-- The end of the block after the last.
def St.nextEnd (s : St) : Int := (s.ctx.super.sblkmx + 1) * ZBLKSZ

-- The file begins with two blocks and nothing free, and has room for the blocks it has.
structure NewFile (s : St) : Prop where
  sfreep : s.ctx.super.sfreep = ZNULL
  sblkmx : 2 ≤ s.ctx.super.sblkmx
  fits : s.ctx.super.sblkmx * ZBLKSZ ≤ BTINT_MAX + 1

theorem NewFile.full_iff (hw : 0 < ZBPW) (hblk : (ZBLKSZ : Int) ≤ BTINT_MAX) (h : NewFile s) :
    s.Full ↔ BTINT_MAX ≤ s.nextEnd := by
  have hend : s.ctx.super.sblkmx * ZBLKSZ + ZBLKSZ = s.nextEnd := by
    unfold St.nextEnd
    ring
  have h0 : 0 ≤ s.ctx.super.sblkmx * (ZBLKSZ : Int) :=
    mul_nonneg (by have := h.sblkmx; omega) (Int.natCast_nonneg _)
  have hfits := h.fits
  unfold St.Full
  rw [hend]
  by_cases hle : s.nextEnd ≤ BTINT_MAX
  · have hwrap : wrap s.nextEnd = s.nextEnd := fits_of_le hw (by omega) hle
    rw [hwrap]
    omega
  · have hneg := wrap_neg hw (not_le.1 hle) (by omega)
    omega

-- What one call of `bgtfre` does.
theorem NewFile.take (hw : 0 < ZBPW) (hblk : (ZBLKSZ : Int) ≤ BTINT_MAX) (h : NewFile s) :
    ∃ r s', speak bgtfre s = .done (r, s') ∧ NewFile s' ∧
      (BTINT_MAX ≤ s.nextEnd → r = ZNULL ∧ s'.ctx.super = s.ctx.super) ∧
      (s.nextEnd < BTINT_MAX → r = s.ctx.super.sblkmx ∧ s'.ctx.super.sblkmx = s.ctx.super.sblkmx + 1) := by
  by_cases hf : s.Full
  · refine ⟨_,_,speak_bgtfre_full h.sfreep hf,⟨h.sfreep,h.sblkmx,h.fits⟩,fun _ => ⟨rfl,rfl⟩,fun hlt => ?_⟩
    have := (h.full_iff hw hblk).1 hf
    omega
  · have hlt : s.nextEnd < BTINT_MAX := not_le.1 fun hle => hf ((h.full_iff hw hblk).2 hle)
    refine ⟨_,_,speak_of_exec (exec_bgtfre_grow h.sfreep hf),⟨h.sfreep,?_,?_⟩,fun hle => absurd hle (not_le.2 hlt),
      fun _ => ⟨rfl,rfl⟩⟩
    · have := h.sblkmx
      change 2 ≤ s.ctx.super.sblkmx + 1
      omega
    · change s.nextEnd ≤ BTINT_MAX + 1
      omega

theorem NewFile.takes (hw : 0 < ZBPW) (hblk : (ZBLKSZ : Int) ≤ BTINT_MAX) (h0 : NewFile s0) (h : Takes s0 s) : NewFile s := by
  induction h with
  | start => exact h0
  | step _ hr ih =>
      obtain ⟨r,s',hr',hy,-⟩ := ih.take hw hblk
      rw [hr] at hr'
      obtain ⟨-,rfl⟩ := Prod.mk.inj (Prog.Outcome.done.inj hr')
      exact hy

-- A block the calls of `bgtfre` answer with.
def Answered (s0 : St) (b : Int) : Prop := ∃ s s', Takes s0 s ∧ speak bgtfre s = .done (b, s') ∧ b ≠ ZNULL

theorem NewFile.answered (hw : 0 < ZBPW) (hblk : (ZBLKSZ : Int) ≤ BTINT_MAX) (h0 : NewFile s0) (hb : Answered s0 b) :
    2 ≤ b ∧ (b + 1) * ZBLKSZ < BTINT_MAX := by
  obtain ⟨s,s',hs,hr,hne⟩ := hb
  have hy := h0.takes hw hblk hs
  obtain ⟨r,s'',hr',-,hrefused,hgrown⟩ := hy.take hw hblk
  rw [hr] at hr'
  obtain ⟨rfl,-⟩ := Prod.mk.inj (Prog.Outcome.done.inj hr')
  have hlt : s.nextEnd < BTINT_MAX := not_le.1 fun hle => hne (hrefused hle).1
  obtain ⟨rfl,-⟩ := hgrown hlt
  exact ⟨hy.sblkmx,hlt⟩

-- An address in a block that ends before `BTINT_MAX`.
theorem mkdraddr_block (hw : 0 < ZBPW) (hb : 2 ≤ b) (hend : (b + 1) * ZBLKSZ < BTINT_MAX) (h0 : 0 ≤ o)
    (ho : o < ZBLKSZ) : mkdraddr b o = b * ZBLKSZ + o := by
  have hpos : 0 ≤ b * (ZBLKSZ : Int) := mul_nonneg (by omega) (Int.natCast_nonneg _)
  have hsplit : (b + 1) * (ZBLKSZ : Int) = b * ZBLKSZ + ZBLKSZ := by ring
  exact mkdraddr_eq (by omega) (fits_of_le hw (by omega) (by omega)) h0 ho

-- The header of a segment, as `wrsz` and `wrint` write it.
def segHeader (size draddr : Int) : List Byte := wrsz size ++ wrint draddr

theorem segHeader_read {size draddr : Int} (h0 : 0 ≤ size) (h1 : size ≤ 65535) (hd : Fits draddr) (l : List Byte) :
    rdsz (segHeader size draddr ++ l) = size ∧ rdint ((segHeader size draddr ++ l).drop ZDRSZ) = draddr := by
  unfold segHeader
  rw [List.append_assoc]
  refine ⟨rdsz_wrsz h0 (by omega) _,?_⟩
  rw [wrsz, leBytes_drop_append]
  exact rdint_wrint hd l

-- Blocks are refused just where the file would grow too long, the addresses in those that are had are taken
-- apart again and differ, and the header of a segment is read as it was written.
theorem addresses_sound (hw : 0 < ZBPW) (hblk : (ZBLKSZ : Int) ≤ BTINT_MAX) (hfree : s0.ctx.super.sfreep = ZNULL)
    (hmax : s0.ctx.super.sblkmx = 2) :
    (∀ s, Takes s0 s → ∃ r s', speak bgtfre s = .done (r, s') ∧ (r = ZNULL ↔ BTINT_MAX ≤ s.nextEnd)) ∧
    (∀ b o, Answered s0 b → 0 ≤ o → o < (ZBLKSZ : Int) - ZINFSZ * ZBPW →
      0 < mkdraddr b o ∧ cnvdraddr (mkdraddr b o) = (b, o)) ∧
    (∀ b o b' o', Answered s0 b → Answered s0 b' → 0 ≤ o → o < (ZBLKSZ : Int) - ZINFSZ * ZBPW →
      0 ≤ o' → o' < (ZBLKSZ : Int) - ZINFSZ * ZBPW → (b, o) ≠ (b', o') → mkdraddr b o ≠ mkdraddr b' o') ∧
    (∀ size draddr l, 0 ≤ size → size ≤ 65535 → Fits draddr →
      rdsz (segHeader size draddr ++ l) = size ∧ rdint ((segHeader size draddr ++ l).drop ZDRSZ) = draddr) := by
  have h0 : NewFile s0 := ⟨hfree,hmax.ge,by rw [hmax]; exact two_blocks hblk⟩
  have haddr : ∀ b o, Answered s0 b → 0 ≤ o → o < (ZBLKSZ : Int) - ZINFSZ * ZBPW →
      0 < mkdraddr b o ∧ cnvdraddr (mkdraddr b o) = (b, o) := by
    intro b o hb ho0 ho
    obtain ⟨hb2,hend⟩ := h0.answered hw hblk hb
    have hinfo : (0 : Int) ≤ (ZINFSZ : Int) * ZBPW := mul_nonneg (by decide) (Int.natCast_nonneg _)
    have hoff : o < ZBLKSZ := by omega
    have hpos : (0 : Int) < b * ZBLKSZ := mul_pos (by omega) (Int.natCast_pos.2 ZBLKSZ_pos)
    rw [mkdraddr_block hw hb2 hend ho0 hoff]
    exact ⟨by omega,cnvdraddr_add (by omega) ho0 hoff⟩
  refine ⟨fun s hs => ?_,haddr,fun b o b' o' hb hb' h1 h2 h3 h4 hne heq => hne ?_,
    fun size draddr l h1 h2 h3 => segHeader_read h1 h2 h3 l⟩
  · have hy := h0.takes hw hblk hs
    obtain ⟨r,s',hr,-,hrefused,hgrown⟩ := hy.take hw hblk
    refine ⟨r,s',hr,fun hnull => ?_,fun hle => (hrefused hle).1⟩
    by_contra hlt
    have hr2 := (hgrown (not_le.1 hlt)).1
    have := hy.sblkmx
    rw [← hr2, hnull] at this
    exact absurd this (by decide)
  · rw [← (haddr b o hb h1 h2).2, heq, (haddr b' o' hb' h3 h4).2]

end Address

section Run

attribute [local instance] smallBuild

theorem addresses_sound_fresh :
    (∃ r s', speak bgtfre St.fresh = .done (r, s') ∧ (r = ZNULL ↔ (BTINT_MAX : Int) ≤ St.fresh.nextEnd)) ∧
      (0 < mkdraddr 2 6 ∧ cnvdraddr (mkdraddr 2 6) = (2, 6)) ∧ mkdraddr 2 6 ≠ mkdraddr 2 7 ∧
        rdsz (segHeader 300 (mkdraddr 2 6)) = 300 := by
  have hfree : St.fresh.ctx.super.sfreep = ZNULL := rfl
  have hadd : Answered St.fresh 2 := by
    have hrun : (speak bgtfre St.fresh).result.any (fun r => decide (r.1 = 2)) = true := by decide +kernel
    obtain ⟨⟨b,s'⟩,hr,hb⟩ := (Option.any_eq_true _ _).1 hrun
    obtain rfl : b = 2 := of_decide_eq_true hb
    exact ⟨St.fresh,s',.start,Prog.Outcome.result_eq_some.1 hr,by decide⟩
  obtain ⟨htakes,haddr,hdiff,hseg⟩ := addresses_sound (by decide) (by decide) hfree rfl
  refine ⟨htakes St.fresh .start,haddr 2 6 hadd (by decide) (by decide),
    hdiff 2 6 2 7 hadd hadd (by decide) (by decide) (by decide) (by decide) (by decide),?_⟩
  have h := (hseg 300 (mkdraddr 2 6) [] (by decide) (by decide) (fits_of_le (by decide) (by decide) (by decide))).1
  rwa [List.append_nil] at h

end Run

end Btlib
