import Btlib.Machine.Steps

namespace Btlib

-- `struct bt_stk`: `stkptr` is the index of the top, and `stk` what stands in memory from `stk[0]` on.
structure Stk where
  stkptr : Int
  stk : Int → Int

-- What a call hands back and reports, and the indices of `stk` it goes to.
structure StkReply where
  val : Int
  error : Option Int
  touched : List Int
deriving DecidableEq, Repr

namespace Stk

def bpull (s : Stk) : StkReply × Stk :=
  if s.stkptr < 0 then (⟨0,some QSTKUF,[]⟩, s)
  else (⟨s.stk s.stkptr,none,[s.stkptr]⟩, { s with stkptr := s.stkptr - 1 })

def bpush (s : Stk) (val : Int) : StkReply × Stk :=
  if (STKMAX : Int) ≤ s.stkptr then (⟨0,some QSTKOF,[]⟩, s)
  else (⟨0,none,[s.stkptr + 1]⟩, ⟨s.stkptr + 1,Function.update s.stk (s.stkptr + 1) val⟩)

def bstkin (s : Stk) : StkReply × Stk := (⟨0,none,[]⟩, { s with stkptr := -1 })

end Stk

inductive StkCall where
  | push (val : Int)
  | pull
  | init
deriving DecidableEq, Repr

namespace StkCall

def run (s : Stk) : StkCall → StkReply × Stk
  | push val => s.bpush val
  | pull => s.bpull
  | init => s.bstkin

-- What a stack with room for `STKMAX` values does: the value it hands back, and what it reports.
def spec (l : List Int) : StkCall → (Int × Option Int) × List Int
  | push val => if l.length < STKMAX then ((0, none), val :: l) else ((0, some QSTKOF), l)
  | pull =>
      match l with
      | [] => ((0, some QSTKUF), [])
      | val :: l => ((val, none), l)
  | init => ((0, none), [])

def runs : List StkCall → Stk → List StkReply × Stk
  | [], s => ([], s)
  | c :: cs, s => ((c.run s).1 :: (runs cs (c.run s).2).1, (runs cs (c.run s).2).2)

def specs : List StkCall → List Int → List (Int × Option Int) × List Int
  | [], l => ([], l)
  | c :: cs, l => ((c.spec l).1 :: (specs cs (c.spec l).2).1, (specs cs (c.spec l).2).2)

-- No value is pushed on a stack that is full.
def Roomy : List StkCall → List Int → Prop
  | [], _ => True
  | c :: cs, l => (∀ val, c = push val → l.length ≠ STKMAX) ∧ Roomy cs (c.spec l).2

end StkCall

-- The values `l` stand in memory, the last of them at the bottom.
def Piled (stk : Int → Int) : List Int → Prop
  | [] => True
  | val :: l => stk l.length = val ∧ Piled stk l

structure Stk.Holds (s : Stk) (l : List Int) : Prop where
  stkptr : s.stkptr = l.length - 1
  piled : Piled s.stk l

variable {s : Stk} {l : List Int} {stk : Int → Int} {i val : Int} {cs : List StkCall}

theorem Piled.update (h : Piled stk l) (hi : (l.length : Int) ≤ i) : Piled (Function.update stk i val) l := by
  induction l with
  | nil => trivial
  | cons v l ih =>
      rw [List.length_cons] at hi
      push_cast at hi
      refine ⟨?_,ih h.2 (by omega)⟩
      rw [Function.update_of_ne (by omega), h.1]

namespace Stk.Holds

theorem push (h : s.Holds l) : Stk.Holds ⟨s.stkptr + 1,Function.update s.stk (s.stkptr + 1) val⟩ (val :: l) := by
  have hptr : s.stkptr + 1 = l.length := by
    rw [h.stkptr]
    omega
  refine ⟨?_,?_,h.piled.update hptr.ge⟩
  · dsimp only
    rw [hptr, List.length_cons]
    omega
  · dsimp only
    rw [hptr, Function.update_self]

theorem pull (h : s.Holds (val :: l)) : Stk.Holds { s with stkptr := s.stkptr - 1 } l := by
  have hptr := h.stkptr
  rw [List.length_cons] at hptr
  refine ⟨?_,h.piled.2⟩
  dsimp only
  rw [hptr]
  omega

-- A call that finds room does what the stack should, within `stk`.
theorem run (h : s.Holds l) (hl : l.length ≤ STKMAX) (c : StkCall) (hroom : ∀ val, c = .push val → l.length ≠ STKMAX) :
    ((c.run s).1.val, (c.run s).1.error) = (c.spec l).1 ∧ (∀ i ∈ (c.run s).1.touched, 0 ≤ i ∧ i < STKMAX) ∧
      (c.run s).2.Holds (c.spec l).2 ∧ (c.spec l).2.length ≤ STKMAX := by
  have hptr := h.stkptr
  cases c with
  | push val =>
      have hlt : l.length < STKMAX := lt_of_le_of_ne hl (hroom val rfl)
      have hfit : ¬ (STKMAX : Int) ≤ s.stkptr := by omega
      simp only [StkCall.run, Stk.bpush, if_neg hfit, StkCall.spec, if_pos hlt]
      refine ⟨trivial,fun i hi => ?_,h.push,hlt⟩
      obtain rfl := List.mem_singleton.1 hi
      omega
  | pull =>
      cases l with
      | nil =>
          have hneg : s.stkptr < 0 := by
            rw [hptr]
            decide
          simp only [StkCall.run, Stk.bpull, if_pos hneg, StkCall.spec]
          exact ⟨trivial,fun i hi => absurd hi List.not_mem_nil,h,hl⟩
      | cons v l =>
          rw [List.length_cons] at hptr hl
          push_cast at hptr
          have hneg : ¬ s.stkptr < 0 := by omega
          have htop : s.stk s.stkptr = v := by
            rw [hptr, add_sub_cancel_right]
            exact h.piled.1
          simp only [StkCall.run, Stk.bpull, if_neg hneg, StkCall.spec, htop]
          refine ⟨trivial,fun i hi => ?_,h.pull,by omega⟩
          obtain rfl := List.mem_singleton.1 hi
          omega
  | init => exact ⟨rfl,fun i hi => absurd hi List.not_mem_nil,⟨rfl,trivial⟩,Nat.zero_le _⟩

-- The push that finds the stack full goes behind `stk`.
theorem push_full (h : s.Holds l) (hl : l.length = STKMAX) (val : Int) : (s.bpush val).1.touched = [(STKMAX : Int)] := by
  have hptr := h.stkptr
  have hfit : ¬ (STKMAX : Int) ≤ s.stkptr := by omega
  have htop : s.stkptr + 1 = STKMAX := by omega
  rw [Stk.bpush, if_neg hfit, htop]

end Stk.Holds

theorem exec_bpush_stk {st : St} (h : s.Holds st.ctx.stk) (val : Int) :
    exec (bpush val) st = (match (s.bpush val).1.error with
      | some code => exec (bterr "BPUSH" code .none) st
      | none => .done ((), { st with ctx.stk := val :: st.ctx.stk })) ∧
      (s.bpush val).2.Holds (if (s.bpush val).1.error = none then val :: st.ctx.stk else st.ctx.stk) := by
  have hptr := h.stkptr
  by_cases hfull : (STKMAX : Int) ≤ s.stkptr
  · have hfull' : (STKMAX : Int) ≤ (st.ctx.stk.length : Int) - 1 := by omega
    simp only [Stk.bpush, if_pos hfull, reduceCtorEq, if_false, bpush, exec_bind, exec_get, Prog.Outcome.bind_done,
      exec_ite, if_pos hfull']
    exact ⟨trivial,h⟩
  · have hfull' : ¬ (STKMAX : Int) ≤ (st.ctx.stk.length : Int) - 1 := by omega
    simp only [Stk.bpush, if_neg hfull, if_true, bpush, exec_bind, exec_get, Prog.Outcome.bind_done, exec_ite,
      if_neg hfull', exec_setStk]
    exact ⟨trivial,h.push⟩

theorem exec_bpull_stk {st : St} (h : s.Holds st.ctx.stk) :
    exec bpull st = (match s.bpull.1.error with
      | some code => exec (do bterr "BPULL" code .none; return 0) st
      | none => .done (s.bpull.1.val, { st with ctx.stk := st.ctx.stk.tail })) ∧
      s.bpull.2.Holds st.ctx.stk.tail := by
  have hptr := h.stkptr
  simp only [bpull, exec_bind, exec_get, Prog.Outcome.bind_done]
  cases hstk : st.ctx.stk with
  | nil =>
      rw [hstk] at h hptr
      have hneg : s.stkptr < 0 := by
        rw [hptr]
        decide
      simp only [Stk.bpull, if_pos hneg, exec_bind]
      exact ⟨trivial,h⟩
  | cons val stk =>
      rw [hstk] at h hptr
      rw [List.length_cons] at hptr
      have hneg : ¬ s.stkptr < 0 := by omega
      have htop : s.stk s.stkptr = val := by
        rw [hptr, Nat.cast_succ, add_sub_cancel_right]
        exact h.piled.1
      simp only [Stk.bpull, if_neg hneg, htop, exec_bind, exec_setStk, Prog.Outcome.bind_done, exec_pure]
      exact ⟨rfl,h.pull⟩

-- The calls hand back and report what they should, and go nowhere else than to `stk`.
structure StkCall.Kept (cs : List StkCall) (s : Stk) (l : List Int) : Prop where
  replies : (runs cs s).1.map (fun r => (r.val, r.error)) = (specs cs l).1
  touched : ∀ r ∈ (runs cs s).1, ∀ i ∈ r.touched, 0 ≤ i ∧ i < STKMAX
  holds : (runs cs s).2.Holds (specs cs l).2

theorem kept_iff_roomy (h : s.Holds l) (hl : l.length ≤ STKMAX) : StkCall.Kept cs s l ↔ StkCall.Roomy cs l := by
  induction cs generalizing s l with
  | nil => exact ⟨fun _ => trivial,fun _ => ⟨rfl,fun r hr => absurd hr List.not_mem_nil,h⟩⟩
  | cons c cs ih =>
      by_cases hroom : ∀ val, c = .push val → l.length ≠ STKMAX
      · obtain ⟨hreply,htouched,hholds,hlen⟩ := h.run hl c hroom
        rw [StkCall.Roomy, ← ih hholds hlen]
        constructor
        · rintro ⟨h1,h2,h3⟩
          exact ⟨hroom,(List.cons.inj h1).2,fun r hr => h2 r (List.mem_cons_of_mem _ hr),h3⟩
        · rintro ⟨-,h1,h2,h3⟩
          refine ⟨?_,fun r hr => ?_,h3⟩
          · simp only [StkCall.runs, StkCall.specs, List.map_cons, hreply, h1]
          · rcases List.mem_cons.1 hr with rfl | hr
            · exact htouched
            · exact h2 r hr
      · obtain ⟨val,rfl,hfull⟩ : ∃ val, c = .push val ∧ l.length = STKMAX := by simpa using hroom
        refine ⟨fun hk => ?_,fun hr => absurd hfull (hr.1 val rfl)⟩
        have := hk.touched _ List.mem_cons_self STKMAX (by
          rw [StkCall.run, h.push_full hfull]
          exact List.mem_singleton_self _)
        omega

-- From an empty stack, the calls keep within `stk` as long as none pushes on a stack of `STKMAX` values.
theorem stack_kept_iff (cs : List StkCall) (stk : Int → Int) :
    StkCall.Kept cs (Stk.bstkin ⟨0,stk⟩).2 [] ↔ StkCall.Roomy cs [] :=
  kept_iff_roomy ⟨rfl,trivial⟩ (Nat.zero_le _)

-- One value too many is written behind `stk`, and not reported.
theorem stack_written_behind : ¬ StkCall.Kept (List.replicate 41 (.push 7)) (Stk.bstkin ⟨0,fun _ => 0⟩).2 [] := by
  intro h
  have := h.touched ⟨0,none,[40]⟩ (by decide +kernel) 40 (List.mem_singleton_self _)
  exact absurd this.2 (by decide)

end Btlib
