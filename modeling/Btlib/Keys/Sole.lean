import Btlib.Dups.Whole
import Btlib.Walk.Runs
import Btlib.Keys.Carry

namespace Btlib

open Multiway Links Prog

variable [Build] {n m m' : Nat} {s s' : St} {fs fs' D os : List Int} {nd : Int → Nat} {live : Finset (Int × Nat)}
  {ent : Int × Nat → DKey} {vals : KeyEnt → List Int} {t : KeyTree m} {t' : KeyTree m'} {e : KeyEnt} {l r : List KeyEnt}
  {key k : Key} {v : Int} {vs : List Int} {ps : List (Int × Nat)}

section Addresses

-- The addresses of the blocks are words of the machine.
def Addressed (c : Ctx) : Prop := 0 ≤ c.super.sblkmx ∧ c.super.sblkmx * ZBLKSZ ≤ BTINT_MAX

theorem handling_addressed : Handling fun c c' => Addressed c → Addressed c' :=
  ⟨⟨fun _ h => h,fun h h' hc => h' (h hc)⟩,fun _ _ h => h,fun _ _ h => h,fun _ _ h => h,fun _ _ _ h => h⟩

theorem searching_addressed (hb : Sized) : Searching fun c c' => Addressed c → Addressed c' where
  toHandling := handling_addressed
  grow := by
    have hR := handling_addressed
    have hsame : ∀ f : Super → Super, (∀ p, (f p).sblkmx = p.sblkmx) →
        Carries (fun c c' => Addressed c → Addressed c') (setSuper f) := fun f hf =>
      carries_modify fun c h => by
        rw [Addressed, hf]
        exact h
    have hgrown : ∀ {c c' : Ctx}, Addressed c → ¬ (wrap (c.super.sblkmx * ZBLKSZ + ZBLKSZ) < 0 ∨
        BTINT_MAX ≤ wrap (c.super.sblkmx * ZBLKSZ + ZBLKSZ)) → c'.super.sblkmx = c.super.sblkmx + 1 → Addressed c' := by
      intro c c' h hno heq
      have hmul : 0 ≤ c.super.sblkmx * (ZBLKSZ : Int) := mul_nonneg h.1 (Int.natCast_nonneg _)
      have hz := Int.natCast_nonneg ZBLKSZ
      have hle := h.2
      rw [Addressed, heq, add_mul, one_mul]
      refine ⟨Int.le_add_one h.1,?_⟩
      exact le_of_wrap hb.word hb.block (by omega) (by omega) (not_lt.1 (not_or.1 hno).1)
    intro c
    change Always _ ((if c.super.sfreep = ZNULL then _ else _ : BT Int) c)
    by_cases hp : c.super.sfreep = ZNULL
    · rw [if_pos hp]
      dsimp only
      split
      · exact hR.bind (hR.bterr (by decide)) (fun _ => carries_ret hR _) c
      · rename_i hno
        intro r
        cases r with
        | noslot =>
            have hx : Carries (fun c c' => Addressed c → Addressed c') (do
                bterr "BGTSLT" QNOMEM .none
                setSuper fun p => { p with smod := p.smod + 1 }
                return ZNULL) :=
              hR.bind (hR.bterr (by decide)) fun _ => hR.bind (hsame _ fun _ => rfl) fun _ => carries_ret hR _
            exact hx c
        | failed =>
            have hx : Carries (fun c c' => Addressed c → Addressed c') (do
                bterr "BGTFRE" QWRBLK (.num c.super.sblkmx)
                return ZNULL) := hR.bind (hR.bterr (by decide)) fun _ => carries_ret hR _
            exact hx c
        | lost => exact fun _ h => hgrown h hno rfl
        | ok => exact fun h => hgrown h hno rfl
    · rw [if_neg hp]
      refine hR.bind (carries_brdblk hR _) (fun r => ?_) c
      cases r with
      | none => exact hR.bind (hR.bterr (by decide)) fun _ => hR.bind (hsame _ fun _ => rfl) fun _ => carries_ret hR _
      | some b =>
          refine hR.bind (carries_bgtinf hR _ _) fun type => .ite ?_ ?_
          · exact hR.bind (hR.bterr (by decide)) fun _ => carries_ret hR _
          · exact hR.bind (carries_bgtinf hR _ _) fun _ => hR.bind (hsame _ fun _ => rfl) fun _ => carries_ret hR _

end Addresses

theorem Whole.search (h : Whole s t fs D os nd live ent)
    (hs' : Shelf s' t' fs' D os live ent vals) (hk : Keeps s s' (D ++ os)) (ha : Addressed s'.ctx) :
    Whole s' t' fs' D os nd live ent :=
  h.ofIndex hs'.index hs'.pos hk (hs'.index.store.size ▸ ha.2)

end Btlib
