import Btlib.Cache.Locks
import Btlib.Cache.Slots

namespace Btlib

variable [Build] {σ : Type} {h : Nat → Prog.Machine Op Res σ} {w w' : World σ} {i : Nat}

namespace World

omit [Build] in
theorem put_put (c c' : Ctx) (s s' : σ) : (w.put i c s).put i c' s' = w.put i c' s' := by
  simp only [put, Function.update_idem]

omit [Build] in
theorem api_open {α : Type} {fn : String} {bad : Int → α} {body : BT α} {c : Ctx} (ho : c.isopen = true) :
    (api fn bad body) c = body c.clear := by
  have hbad : (bvalap fn) c.clear = .ret (0, c.clear) := by
    unfold bvalap
    change (if c.isopen then _ else _ : BT Int) c.clear = _
    rw [if_pos ho]
    rfl
  change ((bvalap fn) c.clear).bind _ = _
  rw [hbad]
  rfl

omit [Build] in
theorem stay_active (ha : w.active = i) (c : Ctx) (s : σ) : w.stay i c s = w.put i c s := by
  subst ha
  simp only [stay, put, Function.update_self, Function.update_idem]

-- With one handle `bdbug` is a call like the others.
theorem within_bdbug_self {E : Op → σ → Prop} {Q : Int × World σ → Prop} (ha : w.active = i)
    (cmd : Debug) (blkno : Int) (ho : (w.ctx i).isopen = true)
    (hx : Runs (h i) E (Api.bdbug cmd blkno).code (w.enter i) w.machine fun r c s => Q (r, w.put i c s)) :
    (w.bdbug h i cmd blkno).Within E Q := by
  subst ha
  have hcode : (Api.bdbug cmd blkno).code (w.enter w.active) = (do
      let ok ← Btlib.enter "BDBUG"
      if ok then bdbugBody cmd blkno
      leave
      btgerr : BT Int) (w.enter w.active).clear := api_open ho
  rw [Runs, hcode] at hx
  have hx := (runs_bind (h := h w.active) (E := E) (c := (w.enter w.active).clear)
    (R := fun r c s => Q (r, w.put w.active c s))).1 hx
  unfold World.bdbug
  rw [Prog.Outcome.within_bind, within_run]
  refine runs_bind.2 (runs_modify.2 (hx.mono fun ok c1 s1 h1 => ?_))
  cases ok with
  | true =>
      dsimp only at h1 ⊢
      rw [if_pos rfl] at h1 ⊢
      rw [within_run, enter_put_self]
      simp only [put_put]
      exact h1
  | false =>
      dsimp only at h1 ⊢
      rw [if_neg (by decide)] at h1 ⊢
      rw [within_run, enter_put_self]
      simp only [put_put]
      exact h1

end World

section Kept

variable {env : Nat → Bool × Disk} {w w' : World Cache}

namespace World

-- A call is tidy where it leaves only the current root busy.
def Tidy (env : Nat → Bool × Disk) (w : World Cache) (a : Api) : Prop :=
  (w.ctx 0).isopen = true → a.Tidy (Cache.sane env) (w.enter 0) w.machine

-- The worlds that calls on one handle lead to, from where it is not open; each call is as `T` says.
inductive Led (env : Nat → Bool × Disk) (T : World Cache → Api → Prop) : World Cache → Prop where
  | closed (w : World Cache) (k : Cache) (hw : (w.ctx 0).isopen = false ∧ (w.ctx 0).lckcnt = 0)
      (ha : w.active = 0) (hk : k.labelled < ZMXBLK) (hm : w.machine = k.initcntrl) : Led env T w
  | call {w w' : World Cache} {r : Int} (a : Api) (hw : Led env T w) (ha : T w a)
      (hstep : w.step (fun _ => Cache.sane env) 0 a = .done (r,w')) : Led env T w'

-- Only the current root is busy.
structure Kept (w : World Cache) : Prop where
  active : w.active = 0
  nonneg : 0 ≤ (w.ctx 0).lckcnt
  settled : Settled True (fun k t => Cache.Keeps k t.1 t.2) (w.ctx 0) w.machine

theorem Kept.step (h3 : 3 ≤ ZMXBLK) (hw : w.Kept) (a : Api) (ha : w.Tidy env a) :
    (w.step (fun _ => Cache.sane env) 0 a).Within (fun o k => k.Damaged o) fun r => r.2.Kept := by
  have hf := Cache.follows_sane env
  have hs : True → 3 ≤ ZMXBLK := fun _ => h3
  have hw' := hw
  obtain ⟨ctx,active,k⟩ := w
  obtain rfl : active = 0 := hw.active
  have h0 : 0 ≤ (ctx 0).lckcnt := hw.nonneg
  have hB : Settled True (fun k t => Cache.Keeps k t.1 t.2) (ctx 0) k := hw.settled
  have hput : ∀ c s, 0 ≤ c.lckcnt → Settled True (fun k t => Cache.Keeps k t.1 t.2) c s →
      (put ⟨ctx,0,k⟩ 0 c s).Kept := fun c s h0 hB => ⟨rfl,by rwa [put_ctx_self],by rwa [put_ctx_self]⟩
  unfold World.step
  cases hop : a.opens with
  | true =>
      rw [if_pos rfl]
      split
      · exact hw'
      · have hend : ∀ (r : Int) c s, (∃ B' last', Cache.Keeps s B' last' ∧ Sound True c B') →
            (put ⟨ctx,0,k⟩ 0 c s).Kept := fun _ c s ⟨B',last',hR,h⟩ => hput c s h.1 ⟨B',last',hR,h.2⟩
        refine within_run.2 ?_
        obtain ⟨B,last,hR,hB⟩ := hB
        cases a with
        | btcrt nkeys shared => exact ((guarded_btcrt hs nkeys shared ⟨h0,hB⟩).runs hf hR).mono hend
        | btopn mode shared => exact ((guarded_btopn hs mode shared ⟨h0,hB⟩).runs hf hR).mono hend
        | _ => cases hop
  | false =>
      rw [if_neg (by decide)]
      split
      · rename_i ho
        have hcode : Runs (Cache.sane env) (fun o k => k.Damaged o) a.code (ctx 0) k fun _ c s =>
            (put ⟨ctx,0,k⟩ 0 c s).Kept :=
          (runs_code hf hs h0 a ho hop hB fun _ => ha ho).mono fun _ c s h => hput c s h.1.1 h.2
        cases a with
        | bdbug cmd blkno => exact within_bdbug_self rfl cmd blkno ho hcode
        | _ =>
            refine within_call.2 (hcode.mono fun r c s h => ?_)
            rw [stay_active rfl, ite_self]
            exact h
      · refine within_run.2 ((runs_idle hf (idle_refuse _) hB).mono fun _ c s h => ?_)
        exact hput c s (h.1.lckcnt ▸ h0) h.2

theorem Led.kept (h3 : 3 ≤ ZMXBLK) (hw : Led env (Tidy env) w) : w.Kept := by
  induction hw with
  | closed w k hw ha hk hm =>
      refine ⟨ha,hw.2.ge,∅,none,?_,fun _ => Finset.empty_subset _⟩
      rw [hm]
      exact Cache.keeps_initcntrl hk
  | call a hw ha hstep ih =>
      have := ih.step h3 a ha
      rw [hstep] at this
      exact this

end World

end Kept

end Btlib

namespace Btlib

namespace World

section Counterexample

local instance hangBuild : Build := build32 20

-- Is the call refused a slot?
def refused {α : Type} : Prog.Outcome Op Cache α → Bool
  | .stuck o k => ¬ k.Damaged o
  | _ => false

end Counterexample

end World

end Btlib
