import Btlib.Cache.Roots

namespace Btlib

variable {α β σ : Type} {h : Prog.Machine Op Res σ} {E : Op → σ → Prop} {x : BT α} {f : α → BT β}
  {c c' : Ctx} {s : σ}

-- What holds of the result, the handle and the machine when a call returns; the machine refuses an
-- operation only where `E` says so.
def Runs (h : Prog.Machine Op Res σ) (E : Op → σ → Prop) (x : BT α) (c : Ctx) (s : σ)
    (Q : α → Ctx → σ → Prop) : Prop :=
  ((x c).run h s).Within E fun r => Q r.1.1 r.1.2 r.2

section Rules

variable {Q Q' : α → Ctx → σ → Prop} {R : β → Ctx → σ → Prop}

theorem Runs.mono (hx : Runs h E x c s Q) (hQ : ∀ a c s, Q a c s → Q' a c s) : Runs h E x c s Q' :=
  Prog.Outcome.Within.mono hx (fun _ _ h => h) fun r => hQ r.1.1 r.1.2 r.2

theorem runs_bind : Runs h E (x >>= f) c s R ↔
    Runs h E x c s fun a c s => Runs h E (f a) c s R := by
  rw [Runs, Runs]
  have hrun : ((x >>= f) c).run h s =
      ((x c).run h s).bind fun r => ((f r.1.1) r.1.2).run h r.2 := Prog.run_bind h _ _ s
  rw [hrun, Prog.Outcome.within_bind]
  rfl

theorem Runs.bind (hx : Runs h E x c s Q) (hf : ∀ a c s, Q a c s → Runs h E (f a) c s R) :
    Runs h E (x >>= f) c s R :=
  runs_bind.2 (hx.mono hf)

theorem runs_ite {p : Prop} [Decidable p] {y : BT α} : Runs h E (if p then x else y) c s Q ↔
    if p then Runs h E x c s Q else Runs h E y c s Q := by
  split <;> rfl

theorem runs_pure {a : α} : Runs h E (pure a) c s Q ↔ Q a c s := Iff.rfl

theorem runs_get {Q : Ctx → Ctx → σ → Prop} : Runs h E get c s Q ↔ Q c c s := Iff.rfl

theorem runs_modify {Q : Unit → Ctx → σ → Prop} {f : Ctx → Ctx} :
    Runs h E (modify f) c s Q ↔ Q () (f c) s := Iff.rfl

theorem runs_ask {o : Op} {Q : Res o → Ctx → σ → Prop} : Runs h E (ask o) c s Q ↔
    match h o s with
    | none => E o s
    | some r => Q r.1 c r.2 := by
  unfold Runs ask Prog.call Prog.bind Prog.run
  cases h o s <;> rfl

theorem Runs.returns (hx : Runs h E x c s Q) :
    Runs h E x c s fun a c' s' => Q a c' s' ∧ (x c).run h s = .done ((a, c'), s') := by
  unfold Runs at hx ⊢
  cases hr : (x c).run h s with
  | done r =>
      rw [hr] at hx
      exact ⟨hx,rfl⟩
  | stuck o t =>
      rw [hr] at hx
      exact hx
  | hung => trivial

theorem Runs.and (hx : Runs h E x c s Q) (hx' : Runs h (fun _ _ => True) x c s Q') :
    Runs h E x c s fun a c' s' => Q a c' s' ∧ Q' a c' s' := by
  unfold Runs at hx hx' ⊢
  cases hr : (x c).run h s with
  | done r =>
      rw [hr] at hx hx'
      exact ⟨hx,hx'⟩
  | stuck o t =>
      rw [hr] at hx
      exact hx
  | hung => trivial

theorem runs_any : Runs h (fun _ _ => True) x c s fun _ _ _ => True := by
  unfold Runs
  cases (x c).run h s <;> trivial

theorem runs_of_done {a : α} {s' : σ} (hr : (x c).run h s = .done ((a, c'), s')) :
    Runs h E x c s Q ↔ Q a c' s' := by
  rw [Runs, hr]
  rfl

end Rules

section Guarded

variable [Build] {strict : Prop} {B : Finset Int} {last : Option Int}
  {R : σ → Finset Int × Option Int → Prop} {Q : α → Ctx → Finset Int → Prop}

theorem Guarded.runs (hf : Prog.Follows (busy strict) h R E) (hx : Guarded strict x c B Q)
    (hR : R s (B, last)) :
    Runs h E x c s fun a c' s' => ∃ B' last', R s' (B', last') ∧ Q a c' B' :=
  (Prog.Guard.within hf (hx last) hR).mono (fun _ _ h => h) fun _ ⟨t,hR,hQ⟩ => ⟨t.1,t.2,hR,hQ⟩

theorem adm_busy_any (o : Op) (t : Finset Int × Option Int) (r : Res o) : (busy False).adm o t r := by
  cases o <;> first | trivial | exact fun h => h.elim

end Guarded

section Lock

-- The lock is granted.
def Grants (h : Prog.Machine Op Res σ) (s : σ) : Prop := ∃ s', h .lock s = some (true, s')

-- A handle gets the lock, or has it already.
def Gets (h : Prog.Machine Op Res σ) (c : Ctx) (s : σ) : Prop := 0 < c.lckcnt ∨ Grants h s

variable [Build]

theorem runs_block_gets : Runs h (fun _ _ => True) block c s fun r _ _ => (r = true ↔ Gets h c s) := by
  refine runs_bind.2 (runs_get.2 ?_)
  rw [runs_ite]
  split
  · rename_i hn
    exact runs_bind.2 (runs_modify.2 (runs_pure.2 (iff_of_true rfl (Or.inl hn))))
  · rename_i hn
    refine runs_bind.2 (runs_ask.2 ?_)
    cases hr : h .lock s with
    | none => trivial
    | some r =>
        obtain ⟨r,s'⟩ := r
        dsimp only
        cases r with
        | true =>
            have hg : Gets h c s := Or.inr ⟨s',hr⟩
            have hend : ∀ c1 s1, Runs h (fun _ _ => True)
                (do modify fun c => { c with lckcnt := 1 }; return true : BT Bool) c1 s1
                fun r _ _ => (r = true ↔ Gets h c s) := fun _ _ => iff_of_true rfl hg
            rw [runs_ite, if_pos rfl, runs_ite]
            split
            · refine runs_bind.2 (runs_any.mono fun _ _ _ _ => ?_)
              refine runs_bind.2 (runs_any.mono fun r _ _ _ => ?_)
              cases r with
              | none => exact hend _ _
              | some b => exact runs_bind.2 (runs_any.mono fun _ _ _ _ => hend _ _)
            · exact hend _ _
        | false =>
            have hg : ¬ Gets h c s := by
              rintro (h0 | ⟨s1,h1⟩)
              · exact hn h0
              · simp [hr] at h1
            exact runs_pure.2 (iff_of_false (by decide) hg)

end Lock

section Settled

variable [Build] {strict : Prop} {R : σ → Finset Int × Option Int → Prop}

-- The machine stands where only the current root is busy.
def Settled (strict : Prop) (R : σ → Finset Int × Option Int → Prop) (c : Ctx) (s : σ) : Prop :=
  ∃ B last, R s (B, last) ∧ Calm strict c B

omit [Build] in
theorem Settled.same (hB : Settled strict R c s) (hs : Same c c') : Settled strict R c' s := by
  obtain ⟨B,last,hR,hB⟩ := hB
  exact ⟨B,last,hR,hB.same hs (.refl B)⟩

variable (hf : Prog.Follows (busy strict) h R E)
include hf

theorem runs_guarded {P : α → Ctx → Prop} (hB : Settled strict R c s)
    (hx : ∀ B, Calm strict c B → Guarded strict x c B fun a c' B' => P a c' ∧ Calm strict c' B') :
    Runs h E x c s fun a c' s' => P a c' ∧ Settled strict R c' s' := by
  obtain ⟨B,last,hR,hB⟩ := hB
  exact ((hx B hB).runs hf hR).mono fun _ _ _ ⟨B',last',hR',hp,hB'⟩ => ⟨hp,B',last',hR',hB'⟩

theorem runs_marksKept (hx : MarksKept strict 2 x) (hs : strict → 3 ≤ ZMXBLK) (hc : Held c)
    (hB : Settled strict R c s) :
    Runs h E x c s fun _ c' s' => Same c c' ∧ Settled strict R c' s' :=
  runs_guarded hf hB fun _ hB => hx.calm hs hc hB

theorem runs_idle (hx : Idle strict x) (hB : Settled strict R c s) :
    Runs h E x c s fun _ c' s' => Same c c' ∧ Settled strict R c' s' :=
  runs_guarded hf hB fun _ hB => hx.calm hB

theorem runs_bterr (name : String) (code : Int) (arg : Arg) (hcode : code ≠ 0)
    (hB : Settled strict R c s) : Runs h E (bterr name code arg) c s fun _ c' s' =>
      (Same c c' ∧ c'.err.qerror ≠ 0) ∧ Settled strict R c' s' :=
  runs_guarded hf hB fun _ hB => (guarded_bterr name code arg hcode).mono fun _ _ _ ⟨h,he,hB'⟩ =>
    ⟨⟨h,he⟩,hB.same h (hB' ▸ .refl _)⟩

variable (hs : strict → 3 ≤ ZMXBLK) (h0 : 0 ≤ c.lckcnt)
include hs h0

theorem runs_block (hB : Settled strict R c s) : Runs h E block c s fun r c' s' =>
    Settled strict R c' s' ∧ (r = true ∧ Same { c with lckcnt := c.lckcnt + 1 } c' ∧ Gets h c s ∨
      r = false ∧ Same c c' ∧ c.lckcnt = 0 ∧ ¬ Gets h c s) := by
  refine ((runs_guarded hf hB fun B hB => (guarded_block_outer h0 hB hs).mono
    fun _ _ _ h => ⟨h.2,h.1⟩).and runs_block_gets).mono fun r c1 s1 h1 => ⟨h1.1.2,?_⟩
  obtain ⟨⟨⟨rfl,h1⟩ | ⟨rfl,h1,hn⟩,-⟩,hg⟩ := h1
  · exact Or.inl ⟨rfl,h1,hg.1 rfl⟩
  · exact Or.inr ⟨rfl,h1,hn,fun h => absurd (hg.2 h) (by decide)⟩

theorem runs_enter (fn : String) (hB : Settled strict R c s) : Runs h E (enter fn) c s fun r c' s' =>
    Settled strict R c' s' ∧ (r = true ∧ Same (c.relock 1) c' ∧ (c.shared = true → Gets h c s) ∨
      r = false ∧ Same c c' ∧ c'.err.qerror ≠ 0 ∧ c.shared = true ∧ c.lckcnt = 0 ∧ ¬ Gets h c s) := by
  refine runs_bind.2 (runs_get.2 ?_)
  rw [runs_ite]
  split
  · rename_i hsh
    have hlock : c.relock 1 = { c with lckcnt := c.lckcnt + 1 } := by rw [Ctx.relock, if_pos hsh]
    refine (runs_block hf hs h0 hB).bind fun r c1 s1 h1 => ?_
    obtain ⟨hB1,⟨rfl,h1,hg⟩ | ⟨rfl,h1,hn,hg⟩⟩ := h1
    · exact runs_pure.2 ⟨hB1,Or.inl ⟨rfl,hlock ▸ h1,fun _ => hg⟩⟩
    · dsimp only
      rw [if_pos (by decide)]
      refine (runs_bterr hf _ _ _ (by decide) hB1).bind fun _ c2 s2 h2 => runs_pure.2 ⟨h2.2,Or.inr ?_⟩
      exact ⟨rfl,h1.trans h2.1.1,h2.1.2,hsh,hn,hg⟩
  · rename_i hsh
    refine runs_pure.2 ⟨hB,Or.inl ⟨rfl,?_,fun h => absurd h hsh⟩⟩
    rw [Ctx.relock, if_neg hsh]
    exact .refl c

theorem runs_leave (hB : Settled strict R c s) : Runs h E leave c s fun _ c' s' =>
    Same c.unlock c' ∧ Settled strict R c' s' :=
  runs_guarded hf hB fun _ hB => (guarded_leave_outer h0 hB hs).mono fun _ _ _ h => ⟨h.2,h.1⟩

theorem runs_bulock (hB : Settled strict R c s) : Runs h E bulock c s fun _ c' s' =>
    Same { c with lckcnt := if 0 < c.lckcnt then c.lckcnt - 1 else c.lckcnt } c' ∧
      Settled strict R c' s' :=
  runs_guarded hf hB fun _ hB => (guarded_bulock h0 hB hs).mono fun _ _ _ h => ⟨h.2,h.1⟩

-- A call that takes the lock of a shared handle and gives it back: `P` is what its body does.
theorem runs_session (fn : String) (busy : α) {body : BT α} {P : Ctx → Prop}
    (hbody : ∀ c1 s1, Same (c.relock 1) c1 → Settled strict R c1 s1 → (c.shared = true → Gets h c s) →
      ((enter fn) c).run h s = .done ((true, c1), s1) →
      Runs h E body c1 s1 fun _ c' s' => P c' ∧ 0 ≤ c'.lckcnt ∧ Settled strict R c' s')
    (hidle : ∀ a, Idle strict (f a)) (hB : Settled strict R c s) :
    Runs h E (do let r ← within fn busy body; leave; f r) c s fun _ c' s' =>
      (Steady c c' ∧ c.shared = true ∧ c.lckcnt = 0 ∧ ¬ Gets h c s ∨
        ∃ c2, P c2 ∧ Steady c2.unlock c') ∧ Settled strict R c' s' := by
  have hend : ∀ c' s' a, 0 ≤ c'.lckcnt → Settled strict R c' s' →
      Runs h E (do leave; f a) c' s' fun _ c'' s'' => Steady c'.unlock c'' ∧ Settled strict R c'' s'' := by
    intro c' s' a h0 hB
    refine (runs_leave hf hs h0 hB).bind fun _ c2 s2 h2 => ?_
    exact (runs_idle hf (hidle a) h2.2).mono fun _ c3 _ h3 => ⟨h2.1.steady.trans h3.1.steady,h3.2⟩
  refine runs_bind.2 ((runs_enter hf hs h0 fn hB).returns.bind fun r c1 s1 h1 => ?_)
  obtain ⟨⟨hB1,⟨rfl,h1,hg⟩ | ⟨rfl,h1,-,hsh,hn,hg⟩⟩,hr⟩ := h1
  · refine (hbody c1 s1 h1 hB1 hg hr).mono fun a c2 s2 h2 => ?_
    exact (hend c2 s2 a h2.2.1 h2.2.2).mono fun _ _ _ h => ⟨Or.inr ⟨c2,h2.1,h.1⟩,h.2⟩
  · refine runs_pure.2 ((hend c1 s1 busy (h1.lckcnt ▸ h0) hB1).mono fun _ _ _ h => ⟨Or.inl ?_,h.2⟩)
    have := h1.steady.unlock.trans h.1
    rw [Ctx.unlock_of_eq hn] at this
    exact ⟨this,hsh,hn,hg⟩

end Settled

end Btlib
