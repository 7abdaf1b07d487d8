import Btlib.Cache.Api
import Btlib.Cache.Roots

namespace Btlib

variable [Build] {α β : Type} {x : BT α} {f : α → BT β}

section SlotSafe

-- A call on a handle of its own asks for slots only where there are some, and leaves no block marked.
def SlotSafe (x : BT α) : Prop :=
  ∀ c B, c.shared = false → Spare True 2 B →
    Guarded True x c B fun _ c' B' => c'.shared = false ∧ Fewer True B B'

theorem MarksKept.slotSafe (h : MarksKept True 2 x) : SlotSafe x := fun c B hc hB =>
  (h c B (fun hs => absurd (hc.symm.trans hs) (by decide)) hB).mono fun _ _ _ h => ⟨h.1.shared.trans hc,h.2⟩

theorem SlotSafe.bind (hx : SlotSafe x) (hf : ∀ a, SlotSafe (f a)) : SlotSafe (x >>= f) := by
  intro c B hc hB
  refine (hx c B hc hB).bind fun a c' B' h => ?_
  exact (hf a c' B' h.1 (hB.fewer h.2)).mono fun _ _ _ h' => ⟨h'.1,h.2.trans h'.2⟩

theorem SlotSafe.ite {p : Prop} [Decidable p] {y : BT α} (hx : SlotSafe x) (hy : SlotSafe y) :
    SlotSafe (if p then x else y) := by
  split
  · exact hx
  · exact hy

theorem slotSafe_alone {f : Ctx → BT α} (h : ∀ c, c.shared = false → SlotSafe (f c)) : SlotSafe (get >>= f) :=
  fun c B hc hB => guarded_bind (guarded_get.2 (h c hc c B hc hB))

theorem SlotSafe.modify {g : Ctx → Ctx} (hs : ∀ c, (g c).shared = c.shared) : SlotSafe (modify g : BT Unit) :=
  fun c B hc _ => guarded_modify.2 ⟨(hs c).trans hc,Fewer.refl B⟩

theorem slotSafe_enter (fn : String) : SlotSafe (enter fn) := by
  refine slotSafe_alone fun c hc => ?_
  rw [hc]
  exact MarksKept.slotSafe (.pure _)

theorem slotSafe_leave : SlotSafe leave := by
  refine slotSafe_alone fun c hc => ?_
  rw [hc]
  exact MarksKept.slotSafe (.pure _)

theorem slotSafe_within (fn : String) (busy : α) {body : BT α} (hbody : SlotSafe body) :
    SlotSafe (within fn busy body) := .bind (slotSafe_enter fn) fun _ => .ite hbody (MarksKept.pure _).slotSafe

theorem slotSafe_api (fn : String) (bad : Int → α) {body : BT α} (hbody : SlotSafe body) : SlotSafe (api fn bad body) := by
  unfold api bvalap
  with_reducible repeat' first | refine .bind ?_ fun _ => ?_ | refine .ite ?_ ?_ | split
  all_goals first | exact hbody | exact MarksKept.slotSafe (by simp)

theorem slotSafe_withErr {body : BT α} (hbody : SlotSafe body) : SlotSafe (withErr body) :=
  .bind hbody fun _ => .bind marksKept_btgerr.slotSafe fun _ => (MarksKept.pure _).slotSafe

theorem slotSafe_errOf {body : BT Unit} (hbody : SlotSafe body) : SlotSafe (errOf body) :=
  .bind hbody fun _ => marksKept_btgerr.slotSafe

end SlotSafe

section Calls

theorem slotSafe_modifyKey (fn : String) (key : Option Key) {body : BT Unit} (hbody : SlotSafe body) :
    SlotSafe (modifyKey fn key body) := by
  refine slotSafe_api _ _ (slotSafe_errOf (.bind MarksKept.get.slotSafe fun _ => .ite ?_ ?_))
  · exact .bind (marksKept_bterr _ _ _).slotSafe fun _ => slotSafe_leave
  · refine .bind (slotSafe_within _ _ (.bind (marksKept_findKey Nat.one_lt_two key).slotSafe fun _ => ?_)) fun _ => slotSafe_leave
    exact .ite hbody (MarksKept.pure _).slotSafe

theorem slotSafe_bupdky (key : Option Key) (val : Int) : SlotSafe (bupdky key val) :=
  slotSafe_modifyKey _ _ (.bind MarksKept.get.slotSafe fun _ => (marksKept_bmodky Nat.two_pos _ _ _).slotSafe)

theorem slotSafe_bdelky (key : Option Key) : SlotSafe (bdelky key) :=
  slotSafe_modifyKey _ _ (marksKept_bdelk1 Nat.one_lt_two key).slotSafe

theorem slotSafe_btpos (pos : Int) : SlotSafe (btpos pos) := by
  refine slotSafe_api _ _ ?_
  unfold btposAt
  with_reducible repeat' first
    | exact slotSafe_enter _
    | exact slotSafe_leave
    | refine .bind ?_ fun _ => ?_
    | refine .ite ?_ ?_
    | split
  all_goals exact MarksKept.slotSafe (by simp)

theorem slotSafe_setup (fn : String) (key : Option Key) : SlotSafe (setup fn key) := by
  refine slotSafe_withErr (.bind marksKept_dataok.slotSafe fun _ => .ite ?_ ?_)
  · exact .bind (marksKept_bterr _ _ _).slotSafe fun _ => (MarksKept.pure _).slotSafe
  cases key with
  | none =>
      refine slotSafe_alone fun c hc => ?_
      simp only [hc, Bool.false_eq_true, if_false]
      refine MarksKept.slotSafe ?_
      unfold context_ok
      with_reducible repeat' first | refine MarksKept.bind ?_ fun _ => ?_ | refine MarksKept.ite ?_ ?_ | split
      all_goals simp
  | some key =>
      refine slotSafe_within _ _ (MarksKept.slotSafe ?_)
      with_reducible repeat' first | refine MarksKept.bind ?_ fun _ => ?_ | refine MarksKept.ite ?_ ?_ | split
      all_goals simp

theorem slotSafe_btins (key : Key) (data : List Byte) (dsize : Int) : SlotSafe (btins key data dsize) := by
  refine slotSafe_api _ _ (slotSafe_errOf ?_)
  unfold btinsPut
  with_reducible repeat' first
    | exact slotSafe_leave
    | refine slotSafe_within _ _ ?_
    | refine .bind ?_ fun _ => ?_
    | refine .ite ?_ ?_
    | split
  all_goals exact MarksKept.slotSafe (by simp)

theorem slotSafe_btupd (key : Option Key) (data : List Byte) (dsize : Int) : SlotSafe (btupd key data dsize) := by
  refine slotSafe_api _ _ ?_
  with_reducible repeat' first
    | exact slotSafe_leave
    | exact slotSafe_setup _ _
    | refine .bind ?_ fun _ => ?_
    | refine .ite ?_ ?_
    | split
  all_goals exact MarksKept.slotSafe (by simp)

theorem slotSafe_btsel (key : Key) (dsize : Int) : SlotSafe (btsel key dsize) := by
  refine slotSafe_api _ _ (slotSafe_withErr ?_)
  unfold btselGet
  with_reducible repeat' first
    | exact slotSafe_leave
    | refine slotSafe_within _ _ ?_
    | refine .bind ?_ fun _ => ?_
    | refine .ite ?_ ?_
    | split
  all_goals exact MarksKept.slotSafe (by simp)

theorem slotSafe_btdel (key : Option Key) : SlotSafe (btdel key) := by
  refine slotSafe_api _ _ (slotSafe_errOf ?_)
  unfold btdelRecord
  with_reducible repeat' first
    | exact slotSafe_leave
    | exact slotSafe_setup _ _
    | exact slotSafe_bdelky _
    | refine .bind ?_ fun _ => ?_
    | refine .ite ?_ ?_
    | split
  all_goals exact MarksKept.slotSafe (by simp)

theorem slotSafe_btrecs (key : Option Key) : SlotSafe (btrecs key) := by
  refine slotSafe_api _ _ (slotSafe_withErr ?_)
  with_reducible repeat' first
    | exact slotSafe_leave
    | exact slotSafe_setup _ _
    | refine .bind ?_ fun _ => ?_
    | refine .ite ?_ ?_
    | split
  all_goals exact MarksKept.slotSafe (by simp)

theorem slotSafe_btdups (dups : Int) : SlotSafe (btdups dups) := by
  refine slotSafe_api _ _ (slotSafe_errOf ?_)
  with_reducible repeat' first
    | exact slotSafe_enter _
    | exact slotSafe_leave
    | refine .bind ?_ fun _ => ?_
    | refine .ite ?_ ?_
    | split
  all_goals exact MarksKept.slotSafe (by simp)

theorem slotSafe_bulock : SlotSafe bulock := by
  unfold bulock
  with_reducible repeat' first
    | exact .modify fun _ => rfl
    | refine .bind ?_ fun _ => ?_
    | refine .ite ?_ ?_
    | split
  all_goals refine MarksKept.slotSafe ?_
  all_goals first | exact .ask (fun _ _ => trivial) fun _ _ => rfl | simp

theorem slotSafe_bulockLoop (n : Nat) : SlotSafe (bulockLoop n) := by
  induction n with
  | zero => exact MarksKept.hang.slotSafe
  | succ n ih =>
      refine .bind MarksKept.get.slotSafe fun _ => .ite ?_ (MarksKept.pure _).slotSafe
      exact .bind slotSafe_bulock fun _ => ih

theorem slotSafe_btcls : SlotSafe btcls := by
  refine slotSafe_api _ _ (.bind (slotSafe_bulockLoop _) fun _ => .bind ?_ fun _ => .ite ?_ ?_)
  · exact MarksKept.slotSafe (.ask (fun _ _ => trivial) fun _ _ => rfl)
  · exact .bind (marksKept_bterr _ _ _).slotSafe fun _ => marksKept_btgerr.slotSafe
  · exact .bind (.modify fun _ => rfl) fun _ => marksKept_btgerr.slotSafe

end Calls

end Btlib
