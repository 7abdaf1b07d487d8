import Btlib.Cache.Every
import Btlib.Machine.Plain

namespace Btlib

variable [Build] {α β σ : Type} {h : Nat → Prog.Machine Op Res σ} {w w' : World σ} {i : Nat}

namespace World

-- `bdbug` strays with two handles where it locks one and does not unlock it, or unlocks one it has not
-- locked.
def Strays (h : Nat → Prog.Machine Op Res σ) (w : World σ) (i : Nat) (a : Api) : Prop :=
  (w.ctx i).isopen = true ∧
    match a with
    | .bdbug cmd blkno =>
        if w.active = i then (Api.bdbug cmd blkno).Strays (h i) (w.enter i) w.machine
        else
          (w.ctx w.active).shared = true ∧ Gets (h w.active) (w.ctx w.active) w.machine ∨
            (w.ctx w.active).shared = false ∧ cmd ≠ .struct ∧ (w.ctx i).shared = true ∧
              0 < (w.ctx i).lckcnt
    | a => a.opens = false ∧ a.Strays (h i) (w.enter i) w.machine

omit [Build] in
theorem within_run {E : Op → σ → Prop} {x : BT α} {Q : α × World σ → Prop} :
    (w.run h i x).Within E Q ↔ Runs (h i) E x (w.enter i) w.machine fun a c s => Q (a, w.put i c s) :=
  Prog.Outcome.within_map _ _

theorem within_call {E : Op → σ → Prop} {a : Api} {Q : Int × World σ → Prop} : (w.call h i a).Within E Q ↔
    Runs (h i) E a.code (w.enter i) w.machine fun r c s => Q (r, if a.aside then w.stay i c s else w.put i c s) :=
  Prog.Outcome.within_map _ _

omit [Build] in
@[simp] theorem put_ctx_self (c : Ctx) (s : σ) : (w.put i c s).ctx i = c := Function.update_self ..

omit [Build] in
theorem put_ctx_of_ne {j : Nat} (hj : j ≠ i) (c : Ctx) (s : σ) : (w.put i c s).ctx j = w.ctx j :=
  Function.update_of_ne hj ..

def Counting (w : World σ) : Prop := ∀ j, 0 ≤ (w.ctx j).lckcnt

omit [Build] in
theorem Counting.put (hw : w.Counting) {c : Ctx} (hc : 0 ≤ c.lckcnt) (s : σ) : (w.put i c s).Counting := by
  intro j
  by_cases hj : j = i
  · subst hj
    rwa [put_ctx_self]
  · rw [put_ctx_of_ne hj]
    exact hw j

theorem idle_refuse {strict : Prop} (fn : String) : Idle strict (do
    bterr0
    bterr fn QBADAP .none
    return QBADAP) :=
  .bind (fun _ _ => guarded_modify.2 ⟨⟨rfl,rfl,rfl,rfl,rfl⟩,rfl⟩) fun _ =>
    .bind (idle_bterr _ _ _) fun _ => idle_pure _

omit [Build] in
theorem enter_put_self (c : Ctx) (s : σ) : (w.put i c s).enter i = c := by
  have hctx : (w.put i c s).ctx (w.put i c s).active = c := put_ctx_self c s
  rw [enter, hctx, put_ctx_self]

section Shut

end Shut

end World

end Btlib

namespace Btlib

namespace World

section Counterexample

local instance smallBuild : Build := build32 20

end Counterexample

end World

end Btlib
