import Btlib.Walk.Carry

namespace Btlib

open Prog

-- What becomes of the words about the blocks of the file: a block given away is counted in `smod`.
structure Allots (c c' : Ctx) : Prop where
  free : c'.super.snfree ≤ c.super.snfree
  smod : c.super.smod ≤ c'.super.smod
  same : c'.super.smod = c.super.smod → c'.super = c.super

theorem drift_allots : Drift Allots where
  refl _ := ⟨le_rfl,le_rfl,fun _ => rfl⟩
  trans h h' := ⟨h'.free.trans h.free,h.smod.trans h'.smod,fun heq => by
    have h1 := h.smod
    have h2 := h'.smod
    rw [h'.same (by omega), h.same (by omega)]⟩

theorem Allots.of_super {c c' : Ctx} (h : c'.super = c.super) : Allots c c' :=
  ⟨by rw [h],by rw [h],fun _ => h⟩

theorem Allots.of_smod {c c' : Ctx} (hfree : c'.super.snfree ≤ c.super.snfree)
    (hsmod : c.super.smod < c'.super.smod) : Allots c c' :=
  ⟨hfree,hsmod.le,fun h => absurd h hsmod.ne'⟩

def Allotting {α : Type} (x : BT α) : Prop := Carries Allots x

theorem handling_allots : Handling Allots where
  drift := drift_allots
  lf _ _ := .of_super rfl
  stk _ _ := .of_super rfl
  keyent _ _ := .of_super rfl
  err _ _ _ := .of_super rfl

section Functions

theorem allotting_setSuper {f : Super → Super} (hfree : ∀ p, (f p).snfree ≤ p.snfree)
    (hsmod : ∀ p, p.smod < (f p).smod) : Allotting (setSuper f) := carries_modify fun _ => .of_smod (hfree _) (hsmod _)

variable [Build]

theorem allotting_bgtfre : Allotting bgtfre := by
  have hR := handling_allots
  unfold bgtfre Allotting
  with_reducible repeat' first
    | refine hR.bterr (by decide)
    | refine hR.bind ?_ fun _ => ?_
    | refine .ite ?_ ?_
    | split
  all_goals first
    | exact hR.ask _
    | simp [hR]
    | exact allotting_setSuper (fun p => by dsimp only; omega) fun p => by dsimp only; omega

theorem searching_allots : Searching Allots := ⟨handling_allots,allotting_bgtfre⟩

theorem allotting_bfndkySearch (key : Key) : Allotting (bfndkySearch key) := carries_bfndkySearch searching_allots key

end Functions

theorem Allotting.exec {α : Type} {x : BT α} (hx : Allotting x) (s : St) {r : α × St} (h : exec x s = .done r) :
    Allots s.ctx r.2.ctx := carries_exec hx s h

end Btlib
