import Mathlib.Data.Finset.Card
import Btlib.Theory.Retrace
import Btlib.Source.World

namespace Btlib

-- What a call relies on in the slots: the blocks marked busy, the block that was read last, where the file
-- ends, whether the changes of the block read last are counted, and the blocks that may not be written out
-- yet, if that is known. `told` is what the superroot is told of the handle, while it is not told anew.
structure SlotFacts where
  busy : Finset Int
  last : Option Int
  size : Int
  counted : Bool
  dirty : Option (Finset Int)
  told : Option Super

-- The words the superroot keeps are the same, or that they are not is counted.
def Told (p q : Super) : Prop :=
  (q.sfreep = p.sfreep ∧ q.sblkmx = p.sblkmx ∧ q.snfree = p.snfree ∧ q.smod = p.smod) ∨ p.smod < q.smod

theorem Told.of_eq {p q : Super} (h : q = p) : Told p q := Or.inl (by simp [h])

theorem Told.trans_lt {p q r : Super} (h : Told p q) (hlt : q.smod < r.smod) : Told p r := by
  rcases h with ⟨-,-,-,h⟩ | h
  · exact Or.inr (h ▸ hlt)
  · exact Or.inr (h.trans hlt)

section Protocol

variable {α : Type}

-- Only the block in hand is changed or marked, only the end of the file grows, and no slot is cleared that is
-- not written out. No eviction fails.
def slotFacts : Prog.Protocol Op Res SlotFacts where
  adm
    | .rd blk, t, r => (blk ∈ t.busy ∨ t.last = some blk → r.1 ≠ none) ∧ r.2 = false
    | .grow _, _, r => r = .ok
    | _, _, _ => True
  ok
    | .rd blk, t => t.counted = true ∨ t.last = some blk
    | .wr blk _ _, t => t.last = some blk
    | .busy blk _, t => t.counted = true ∧ t.last = some blk
    | .grow blk, t => t.counted = true ∧ blk = t.size
    | .mark _, t | .through _ _, t | .wrblk _, t => t.counted = true
    | .wrall, t => t.counted = true ∧ t.told = none
    | .initcntrl, t => t.counted = true ∧ t.dirty = some ∅
    | .report _ _, _ | .unlock, _ | .fclose, _ => True
    | _, _ => False
  next
    | .rd blk, t, r => { t with last := if r.1 = none then none else some blk }
    | .wr blk _ n, t, _ => { t with counted := decide (0 < n), dirty := t.dirty.map (insert blk) }
    | .busy blk on, t, _ => { t with busy := if on then insert blk t.busy else t.busy.erase blk }
    | .grow blk, t, _ => { t with last := none, size := blk + 1 }
    | .wrblk blk, t, _ => { t with dirty := t.dirty.map fun D => D.erase blk }
    | .wrall, t, _ => { t with dirty := some ∅ }
    | .initcntrl, t, _ => { t with busy := ∅, last := none }
    | _, t, _ => t

-- What holds of the result, the handle and the slots, whatever is read.
def Minds (x : BT α) (c : Ctx) (t : SlotFacts) (Q : α → Ctx → SlotFacts → Prop) : Prop :=
  (x c).Guard slotFacts (fun r t => Q r.1 r.2 t) t

end Protocol

variable {α β : Type} {c c' : Ctx} {t t' : SlotFacts} {x : BT α} {f : α → BT β} {blk : Int}

section Rules

variable {Q Q' : α → Ctx → SlotFacts → Prop} {R : β → Ctx → SlotFacts → Prop}

theorem Minds.mono (h : Minds x c t Q) (hQ : ∀ a c t, Q a c t → Q' a c t) : Minds x c t Q' :=
  Prog.Guard.mono h fun a t => hQ a.1 a.2 t

theorem Minds.bind (hx : Minds x c t Q) (hf : ∀ a c t, Q a c t → Minds (f a) c t R) : Minds (x >>= f) c t R :=
  (Prog.guard_bind _ _ _).2 (Prog.Guard.mono hx fun a t h => hf a.1 a.2 t h)

theorem Minds.told (h : Minds x c t Q) : Minds x c t fun a c' t' => Q a c' t' ∧ t'.told = t.told :=
  Prog.Guard.const SlotFacts.told (fun o _ _ => by cases o <;> rfl) h

theorem minds_ite {p : Prop} [Decidable p] {y : BT α} :
    Minds (if p then x else y) c t Q ↔ if p then Minds x c t Q else Minds y c t Q := by
  split <;> rfl

theorem minds_get_bind {f : Ctx → BT β} : Minds (get >>= f) c t R ↔ Minds (f c) c t R := Iff.rfl

theorem minds_ask_bind {o : Op} {f : Res o → BT β} : Minds (ask o >>= f) c t R ↔
    slotFacts.ok o t ∧ ∀ r, slotFacts.adm o t r → Minds (f r) c (slotFacts.next o t r) R := Iff.rfl

theorem minds_ask {o : Op} {Q : Res o → Ctx → SlotFacts → Prop} (hok : slotFacts.ok o t)
    (h : ∀ r, slotFacts.adm o t r → Q r c (slotFacts.next o t r)) : Minds (ask o) c t Q := ⟨hok,h⟩

end Rules

section KeepsFacts

-- A handle of its own, to which the slots are up to date.
structure Lone (c : Ctx) (t : SlotFacts) : Prop where
  shared : c.shared = false
  size : c.super.sblkmx = t.size
  counted : t.counted = true
  told : ∀ p, t.told = some p → Told p c.super

-- `x` does only what the slots are ready for.
def KeepsFacts (x : BT α) : Prop := ∀ c t, Lone c t → Minds x c t fun _ c' t' => Lone c' t'

-- The same with `blk` in hand.
def Upon (blk : Int) (x : BT α) : Prop :=
  ∀ c t, Lone c t → t.last = some blk → Minds x c t fun _ c' t' => Lone c' t'

theorem KeepsFacts.upon (h : KeepsFacts x) : Upon blk x := fun c t ht _ => h c t ht

theorem Upon.ite {p : Prop} [Decidable p] {y : BT α} (hx : Upon blk x) (hy : Upon blk y) :
    Upon blk (if p then x else y) := by
  split
  · exact hx
  · exact hy

theorem KeepsFacts.bind (hx : KeepsFacts x) (hf : ∀ a, KeepsFacts (f a)) : KeepsFacts (x >>= f) := fun c t ht =>
  (hx c t ht).bind fun a c' t' h => hf a c' t' h

theorem KeepsFacts.ite {p : Prop} [Decidable p] {y : BT α} (hx : KeepsFacts x) (hy : KeepsFacts y) :
    KeepsFacts (if p then x else y) := by
  split
  · exact hx
  · exact hy

@[simp] theorem KeepsFacts.pure (a : α) : KeepsFacts (pure a : BT α) := fun _ _ h => h

@[simp] theorem KeepsFacts.get : KeepsFacts (get : BT Ctx) := fun _ _ h => h

@[simp] theorem KeepsFacts.hang : KeepsFacts (hang : BT α) := fun _ _ _ => trivial

@[simp] theorem KeepsFacts.map (hx : KeepsFacts x) (g : α → β) : KeepsFacts (g <$> x) := by
  rw [map_eq_pure_bind]
  exact hx.bind fun a => .pure (g a)

theorem KeepsFacts.modify {g : Ctx → Ctx} (hs : ∀ c, (g c).shared = c.shared) (hp : ∀ c, (g c).super = c.super) :
    KeepsFacts (modify g : BT Unit) := fun c _ h =>
  ⟨(hs c).trans h.shared,(hp c ▸ h.size),h.counted,fun p ht => hp c ▸ h.told p ht⟩

@[simp] theorem KeepsFacts.setLf (g : Lf → Lf) : KeepsFacts (setLf g) := .modify (fun _ => rfl) fun _ => rfl

@[simp] theorem KeepsFacts.setStk (g : List Int → List Int) : KeepsFacts (setStk g) :=
  .modify (fun _ => rfl) fun _ => rfl

@[simp] theorem KeepsFacts.setErr (g : Err → Err) : KeepsFacts (setErr g) := .modify (fun _ => rfl) fun _ => rfl

@[simp] theorem KeepsFacts.setSuper {g : Super → Super} (hb : ∀ p, (g p).sblkmx = p.sblkmx)
    (hm : ∀ p, (g p).smod = p.smod + 1) : KeepsFacts (setSuper g) := fun c _ h =>
  ⟨h.shared,(hb c.super).trans h.size,h.counted,fun p ht => (h.told p ht).trans_lt (hm c.super ▸ Int.lt_succ _)⟩

@[simp] theorem keepsFacts_keyent (e : KeyEnt) :
    KeepsFacts (modify fun c => { c with keyent := e } : BT Unit) := .modify (fun _ => rfl) fun _ => rfl

theorem KeepsFacts.ask {o : Op} (hok : ∀ t : SlotFacts, t.counted = true → slotFacts.ok o t)
    (hnext : ∀ c t r, Lone c t → Lone c (slotFacts.next o t r)) : KeepsFacts (ask o) := fun c t h =>
  minds_ask (hok t h.counted) fun r _ => hnext c t r h

@[simp] theorem keepsFacts_bterr (name : String) (code : Int) (arg : Arg) : KeepsFacts (bterr name code arg) :=
  .bind (.ask (fun _ _ => trivial) fun _ _ _ h => h) fun _ => .setErr _

@[simp] theorem keepsFacts_bterr0 : KeepsFacts bterr0 := .setErr _

@[simp] theorem keepsFacts_btgerr : KeepsFacts btgerr := .bind .get fun _ => .pure _

@[simp] theorem keepsFacts_mark (blk : Int) : KeepsFacts (mark blk) := .ask (fun _ h => h) fun _ _ _ h => h

@[simp] theorem keepsFacts_bwrblk (blk : Int) : KeepsFacts (bwrblk blk) :=
  .ask (fun _ h => h) fun _ _ _ h => ⟨h.shared,h.size,h.counted,h.told⟩

@[simp] theorem keepsFacts_writeThrough (blk : Int) : KeepsFacts (writeThrough blk) :=
  .bind .get fun _ => .ite (.ask (fun _ h => h) fun _ _ _ h => h) (.pure _)

end KeepsFacts

section Hand

theorem minds_brdblk (ht : t.counted = true ∨ t.last = some blk) : Minds (brdblk blk) c t fun r c' t' =>
    c' = c ∧ t' = { t with last := if r = none then none else some blk } ∧
      (blk ∈ t.busy ∨ t.last = some blk → r ≠ none) := by
  refine minds_ask_bind.2 ⟨ht,fun r hr => ?_⟩
  obtain ⟨hhand,hlost⟩ := hr
  rw [minds_ite, if_neg (by simp [hlost])]
  exact ⟨rfl,rfl,hhand⟩

theorem KeepsFacts.read {f : Option Block → BT β} (h0 : KeepsFacts (f none)) (h : ∀ b, Upon blk (f (some b))) :
    KeepsFacts (brdblk blk >>= f) := by
  intro c t ht
  refine (minds_brdblk (Or.inl ht.counted)).bind fun r c' t' hr => ?_
  obtain ⟨rfl,rfl,-⟩ := hr
  cases r with
  | none => exact h0 _ _ ⟨ht.shared,ht.size,ht.counted,ht.told⟩
  | some b => exact h b _ _ ⟨ht.shared,ht.size,ht.counted,ht.told⟩ rfl

@[simp] theorem keepsFacts_brdblk (blk : Int) : KeepsFacts (brdblk blk) := by
  rw [← bind_pure (brdblk blk)]
  exact .read (.pure _) fun _ => (KeepsFacts.pure _).upon

theorem minds_wr {b : Block} {n : Int} (ht : t.last = some blk) (hn : 0 < n) :
    Minds (wr blk b n) c t fun _ c' t' => c' = c ∧
      t' = { t with counted := true, dirty := t.dirty.map (insert blk) } :=
  minds_ask ht fun _ _ => ⟨rfl,by simp [slotFacts, hn]⟩

theorem upon_wr {b : Block} {n : Int} (hn : 0 < n) : Upon blk (wr blk b n) := fun c t ht hl =>
  (minds_wr hl hn).mono fun _ _ _ h => by
    obtain ⟨rfl,rfl⟩ := h
    exact ⟨ht.shared,ht.size,rfl,ht.told⟩

theorem Upon.wr_bind {b : Block} {n : Int} {f : Unit → BT β} (hn : 0 < n) (hf : KeepsFacts (f ())) :
    Upon blk (wr blk b n >>= f) := fun c t ht hl =>
  (upon_wr hn c t ht hl).bind fun _ c' t' h => hf c' t' h

theorem upon_busy (blk : Int) (on : Bool) : Upon blk (ask (.busy blk on)) := fun _ _ ht hl =>
  minds_ask ⟨ht.counted,hl⟩ fun _ _ => ⟨ht.shared,ht.size,ht.counted,ht.told⟩

@[simp] theorem keepsFacts_bsetbs (blk : Int) (on : Bool) : KeepsFacts (bsetbs blk on) :=
  .read (keepsFacts_bterr _ _ _) fun _ => upon_busy blk on

theorem minds_bsetbs {blk : Int} (on : Bool) (ht : t.counted = true) (hin : blk ∈ t.busy ∨ t.last = some blk) :
    Minds (bsetbs blk on) c t fun _ c' t' => c' = c ∧
      t' = { t with last := some blk, busy := if on then insert blk t.busy else t.busy.erase blk } := by
  refine (minds_brdblk (Or.inl ht)).bind fun r c1 t1 h1 => ?_
  obtain ⟨rfl,rfl,hr⟩ := h1
  cases r with
  | none => exact absurd rfl (hr hin)
  | some b => exact minds_ask ⟨ht,rfl⟩ fun _ _ => ⟨rfl,rfl⟩

@[simp] theorem keepsFacts_bpush (val : Int) : KeepsFacts (bpush val) := by
  unfold bpush
  with_reducible repeat' first | refine .bind ?_ fun _ => ?_ | refine .ite ?_ ?_ | split
  all_goals simp

@[simp] theorem keepsFacts_bpull : KeepsFacts bpull := by
  unfold bpull
  with_reducible repeat' first | refine .bind ?_ fun _ => ?_ | refine .ite ?_ ?_ | split
  all_goals simp

@[simp] theorem keepsFacts_bstkin : KeepsFacts bstkin := .setStk _

@[simp] theorem keepsFacts_bclrlf : KeepsFacts bclrlf := .setLf _

@[simp] theorem keepsFacts_bsrhbk (blk : Int) (o : Srh) : KeepsFacts (bsrhbk blk o) := by
  unfold bsrhbk
  with_reducible repeat' first | refine .bind ?_ fun _ => ?_ | refine .ite ?_ ?_ | split
  all_goals simp

@[simp] theorem keepsFacts_bremky (blk pos : Int) : KeepsFacts (bremky blk pos) := by
  refine .read (keepsFacts_bterr _ _ _) fun b => ?_
  exact .wr_bind Int.one_pos (.bind (keepsFacts_mark _) fun _ => keepsFacts_writeThrough _)

end Hand

end Btlib
