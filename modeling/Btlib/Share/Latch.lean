import Btlib.Share.Turn

namespace Btlib

open Prog

variable [Build] {α β : Type} {c : Ctx} {k : Cache} {D : Int} {Q : α → Phase → Prop} {p : Prog Op Res α} {t : Phase}

section Outside

omit [Build] in
theorem mute (ht : t = .outside ∨ t = .refused) (h : p.Guard latch Q t) : p.Guard latch (fun a _ => Q a t) t := by
  induction p with
  | ret a => exact h
  | hang => trivial
  | op o g ih =>
      refine ⟨h.1,fun r hr => ?_⟩
      have hnext : latch.next o t r = t := by
        cases o with
        | report name code => rfl
        | _ => rcases ht with rfl | rfl <;> cases h.1
      rw [hnext]
      exact ih r (hnext ▸ h.2 r hr)

-- It leaves the slots and the file alone, so that what its run comes to holds already.
theorem mute_run {E : Op → Cache → Prop} {P : α × Cache → Prop} (h : p.Guard latch Q .outside)
    (hr : (p.run Cache.alone k).Ends E P) : p.Guard latch (fun a _ => P (a, k)) .outside ∧ ∃ a, P (a, k) := by
  induction p with
  | ret a => exact ⟨hr,a,hr⟩
  | hang => exact hr.elim
  | op o g ih =>
      cases o with
      | report name code =>
          have hname : ¬ (GivesUp name ∨ name = "BPUSH") := by
            rcases h.1 with h1 | h1
            · cases h1
            · exact h1.2
          have hask : Cache.alone (.report name code) k = some ((), k) := if_neg hname
          rw [Prog.run, hask] at hr
          obtain ⟨hg,hP⟩ := ih () (h.2 () trivial) hr
          exact ⟨⟨h.1,fun _ _ => hg⟩,hP⟩
      | _ => cases h.1

end Outside

section Calls

omit [Build] in
theorem latched_tail (call : Call) (r : Int × Int) (c : Ctx) :
    (call.tail r c).Guard latch (fun _ t => t = .outside) .outside := by
  cases call with
  | insert key val => exact rfl
  | update key val => exact rfl
  | find key =>
      unfold Call.tail
      by_cases hr : r.1 = 0
      · simp only [hr, ne_eq, not_true_eq_false, if_false]
        exact rfl
      · simp only [hr, ne_eq, not_false_eq_true, if_true]
        exact ⟨Or.inr ⟨Or.inl rfl,by simp [GivesUp]⟩,fun _ _ => rfl⟩

theorem latched_leave {f : BT β} {Q : β × Ctx → Phase → Prop} (hf : ∀ c, (f c).Guard latch Q .outside) :
    ((do leave; f) (c.withLock 1)).Guard latch Q .inside := by
  have hleave : leave (c.withLock 1) = (do
      let _ ← btsync
      let ok ← ask .unlock
      if ¬ ok then bterr "BULOCK" QUNLCK .none
      modify fun c => { c with lckcnt := 0 } : BT Unit) (c.withLock 1) := rfl
  refine (guard_bind _ _ _).2 ?_
  rw [hleave]
  have hlike : LikeOwn False 1 (c.withLock 1) { c with shared := false } := ⟨rfl,False.elim,rfl⟩
  refine (guard_bind _ _ _).2 ((ignoresLock_btsync.guard le_rfl hlike).mono ?_)
  rintro ⟨_,c1⟩ t ⟨-,rfl⟩
  refine ⟨rfl,fun (ok : Bool) _ => ?_⟩
  cases ok with
  | true => exact hf _
  | false => exact ⟨Or.inr ⟨Or.inl rfl,by simp [GivesUp]⟩,fun _ _ => hf _⟩

-- A shared handle that holds no lock and may change its file.
structure Unlocked (c : Ctx) : Prop where
  isopen : c.isopen = true
  shared : c.shared = true
  lckcnt : c.lckcnt = 0
  mode : c.super.smode = 0

theorem Unlocked.latched (hv : Unlocked c) (call : Call) : (call.answer c).Guard latch (fun r t =>
    t = .outside ∨ (t = .refused ∧ r.1 = (QBUSY, none) ∧ ∃ e, r.2 = { c.own.withLock 0 with err := e })) .waiting := by
  have hlet : ∀ o : Ctx, o.shared = false → ((do
      let a ← call.body
      leave
      call.tail a : BT (Int × Option Int)) (o.withLock 1)).Guard latch (fun r t =>
        t = .outside ∨ (t = .refused ∧ r.1 = (QBUSY, none) ∧ ∃ e, r.2 = { c.own.withLock 0 with err := e })) .inside := by
    intro o hs
    refine (guard_bind _ _ _).2 (((call.ignoresLock_body Int.one_pos).guard le_rfl ⟨hs,False.elim,rfl⟩).mono ?_)
    rintro ⟨a,c1⟩ t ⟨⟨c2,hl⟩,rfl⟩
    obtain rfl : c1 = c2.withLock 1 := hl.withLock
    exact latched_leave fun c => (latched_tail call a c).mono fun _ _ ht => Or.inl ht
  rw [call.answer_eq hv.isopen hv.mode, ← Ctx.withLock_own hv.shared hv.lckcnt, locked_bind]
  have henter : enter call.name (c.own.withLock 0) = (do
      let ok ← block
      if ¬ ok then bterr call.name QBUSY .none
      pure ok : BT Bool) (c.own.withLock 0) := rfl
  refine (guard_bind _ _ _).2 ?_
  rw [henter]
  refine (guard_bind _ _ _).2 ?_
  rw [block_withLock]
  refine ⟨rfl,fun (ok : Bool) _ => ?_⟩
  cases ok with
  | false =>
      have hreport : ∀ name, (name = "BINSKY" ∨ name = "BFNDKY" ∨ name = "BUPDKY") →
          latch.ok (.report name QBUSY) .refused := by
        rintro name (rfl | rfl | rfl) <;> exact Or.inr ⟨Or.inr rfl,by simp [GivesUp]⟩
      cases call with
      | insert key val => exact ⟨hreport _ (.inl rfl),fun _ _ => .inr ⟨rfl,rfl,_,rfl⟩⟩
      | update key val => exact ⟨hreport _ (.inr (.inr rfl)),fun _ _ => .inr ⟨rfl,rfl,_,rfl⟩⟩
      | find key =>
          exact ⟨hreport _ (.inr (.inl rfl)),fun _ _ => ⟨.inr ⟨.inr rfl,by simp [GivesUp]⟩,fun _ _ =>
            .inr ⟨rfl,rfl,_,rfl⟩⟩⟩
  | true =>
      have hin : ∀ c1 : Ctx, (∃ o, LikeOwn False 0 c1 o) → ((do
          let a ← call.body
          leave
          call.tail a : BT (Int × Option Int)) { c1 with lckcnt := 1 }).Guard latch (fun r t =>
            t = .outside ∨ (t = .refused ∧ r.1 = (QBUSY, none) ∧ ∃ e, r.2 = { c.own.withLock 0 with err := e })) .inside := by
        rintro _ ⟨o,hs,-,rfl⟩
        exact hlet o hs
      change Guard latch _ ((if (c.own.withLock 0).shared = true ∧ (c.own.withLock 0).super.scroot ≠ ZNULL then (do
          refresh (c.own.withLock 0).super.scroot
          modify fun c => { c with lckcnt := 1 }
          return true)
        else (do
          modify fun c => { c with lckcnt := 1 }
          return true) : BT Bool) (c.own.withLock 0)) .inside
      by_cases hroot : (c.own.withLock 0).shared = true ∧ (c.own.withLock 0).super.scroot ≠ ZNULL
      · rw [if_pos hroot]
        have hlike : LikeOwn False 0 (c.own.withLock 0) c.own := ⟨rfl,False.elim,rfl⟩
        have hrefresh := (ignoresLock_refresh (c.own.withLock 0).super.scroot).guard le_rfl hlike
        refine (guard_bind _ _ _).2 (hrefresh.mono ?_)
        rintro ⟨_,c1⟩ t ⟨hc1,rfl⟩
        exact hin c1 hc1
      · rw [if_neg hroot]
        exact hin _ ⟨c.own,rfl,False.elim,rfl⟩

theorem Vacant.unlocked (hv : Vacant D c k) : Unlocked c := ⟨hv.isopen,hv.shared,hv.lckcnt,hv.mode⟩

theorem Vacant.latched (hv : Vacant D c k) (call : Call) : (call.answer c).Guard latch (fun r t =>
    t = .outside ∨ (t = .refused ∧ r.1 = (QBUSY, none) ∧ Vacant D r.2 k)) .waiting := by
  refine (hv.unlocked.latched call).mono fun r t ht => ht.imp_right fun ⟨ht,hr,e,hc⟩ => ⟨ht,hr,?_⟩
  rw [hc]
  exact ⟨hv.isopen,rfl,rfl,hv.root,hv.mode,hv.smod,hv.clear,hv.labelled⟩

omit [Build] in
theorem Unlocked.steady {c' : Ctx} (h : Unlocked c) (hs : Steady c c') : Unlocked c' :=
  ⟨hs.isopen.trans h.isopen,hs.shared.trans h.shared,hs.lckcnt.trans h.lckcnt,hs.mode.trans h.mode⟩

-- Whatever the slots and the file answer, the handle is unlocked after a call as it was before.
theorem Unlocked.after (h : Unlocked c) (call : Call) : Guarded False call.answer c ∅ fun _ c' _ => Unlocked c' := by
  have hcounts : ∀ {x : BT (Int × Option Int)}, Counts False x id → Guarded False x c ∅ fun _ c' _ => Unlocked c' :=
    fun hx => (hx c ∅ h.isopen h.lckcnt.ge (fun hf => hf.elim) fun hf => hf.elim).mono fun _ _ _ hq => h.steady hq.1
  cases call with
  | insert key val => exact hcounts ((counts_binsky key val).bind_idle fun _ => idle_pure _)
  | find key => exact hcounts ((counts_bfndky key).bind_idle fun _ => idle_pure _)
  | update key val =>
      refine (counts_bupdky (some key) val c ∅ h.isopen h.lckcnt.ge (fun hf => hf.elim) fun hf => hf.elim).bind
        fun _ c1 _ hq => guarded_pure.2 (h.steady ?_)
      have hsame : Steady (if c.super.smode = 0 then c else c.unlock) c1 := hq.1
      rwa [if_pos h.mode] at hsame

theorem Unlocked.answers (h : Unlocked c) (call : Call) : (call.answer c).Guard (latch.both (busy False))
    (fun r t => t.1 ≠ .inside ∧ Unlocked r.2) (.waiting, ∅, none) :=
  ((h.latched call).both (h.after call none)).mono fun r t ht =>
    ⟨by rcases ht.1 with hp | hp <;> simp [hp],ht.2⟩

end Calls

end Btlib
