import Mathlib.Data.Finset.Card
import Btlib.Theory.Guard
import Btlib.Source.Roots

namespace Btlib

-- The errors of a split or an allocation that gives up.
def GivesUp (name : String) : Prop := name = "BGTFRE" ∨ name = "BSPTBK"

section Protocol

variable [Build] {α : Type}

-- The blocks marked busy, and what is known of the answers then. A slot is asked for where a block may
-- have to be read in. Unless `strict` holds every answer is admitted and nothing is asked.
def slots (strict : Prop) : Prog.Protocol Op Res (Finset Int) where
  adm
    | .rd blk, B, r => strict → (blk ∈ B → r.1 ≠ none) ∧ (blk < ZNULL → r.1 = none)
    | .grow blk, _, r => strict → 0 ≤ blk ∧ r ≠ .noslot
    | .report name _, _, _ => strict → ¬ GivesUp name
    | _, _, _ => True
  ok
    | .rd blk, B => strict → blk ∈ B ∨ B.card < ZMXBLK
    | .grow _, B => strict → B.card < ZMXBLK
    | .label _, B => strict → B.card < ZMXBLK
    | .busy _ _, _ => False
    | _, _ => True
  next
    | .busy blk on, B, _ => if on then insert blk B else B.erase blk
    | .initcntrl, _, _ => ∅
    | _, B, _ => B

-- Only the block that was read last is marked.
def busy (strict : Prop) : Prog.Protocol Op Res (Finset Int × Option Int) where
  adm o t r := (slots strict).adm o t.1 r
  ok
    | .busy blk _, t => strict → t.2 = some blk
    | o, t => (slots strict).ok o t.1
  next o t r :=
    ((slots strict).next o t.1 r,
      match o, r with
      | .rd blk, r => if r.1 = none then none else some blk
      | .report _ _, _ => t.2
      | _, _ => none)

-- What holds of the result, the handle and the busy blocks, whatever the cache and the file answer.
def Guarded (strict : Prop) (x : BT α) (c : Ctx) (B : Finset Int)
    (Q : α → Ctx → Finset Int → Prop) : Prop :=
  ∀ last, (x c).Guard (busy strict) (fun r t => Q r.1 r.2 t.1) (B, last)

end Protocol

variable [Build] {strict : Prop} {α β : Type} {c c' c'' : Ctx} {B B' B'' : Finset Int} {x : BT α}
  {f : α → BT β}

section Rules

variable {Q Q' : α → Ctx → Finset Int → Prop} {R : β → Ctx → Finset Int → Prop}

theorem Guarded.mono (h : Guarded strict x c B Q) (hQ : ∀ a c B, Q a c B → Q' a c B) :
    Guarded strict x c B Q' := fun l =>
  Prog.Guard.mono (h l) fun a t => hQ a.1 a.2 t.1

theorem Guarded.and (h : Guarded strict x c B Q) (h' : Guarded False x c B Q') :
    Guarded strict x c B fun a c B => Q a c B ∧ Q' a c B := by
  refine fun l => Prog.Guard.and (h l) (h' l) (fun o t r _ => ?_) fun o t r => rfl
  cases o <;> first | trivial | exact fun h => h.elim

theorem guarded_bind (h : Guarded strict x c B fun a c B => Guarded strict (f a) c B R) :
    Guarded strict (x >>= f) c B R := fun l =>
  (Prog.guard_bind _ _ _).2 (Prog.Guard.mono (h l) fun _ t h => h t.2)

theorem Guarded.bind (hx : Guarded strict x c B Q)
    (hf : ∀ a c B, Q a c B → Guarded strict (f a) c B R) : Guarded strict (x >>= f) c B R :=
  guarded_bind (hx.mono hf)

theorem guarded_ite {p : Prop} [Decidable p] {y : BT α} : Guarded strict (if p then x else y) c B Q ↔
    if p then Guarded strict x c B Q else Guarded strict y c B Q := by
  split <;> rfl

theorem guarded_pure {a : α} : Guarded strict (pure a) c B Q ↔ Q a c B := ⟨fun h => h none,fun h _ => h⟩

theorem guarded_get {Q : Ctx → Ctx → Finset Int → Prop} : Guarded strict get c B Q ↔ Q c c B :=
  ⟨fun h => h none,fun h _ => h⟩

theorem guarded_modify {Q : Unit → Ctx → Finset Int → Prop} {f : Ctx → Ctx} :
    Guarded strict (modify f) c B Q ↔ Q () (f c) B := ⟨fun h => h none,fun h _ => h⟩

theorem guarded_ask {o : Op} {Q : Res o → Ctx → Finset Int → Prop} (h : (slots strict).ok o B ∧
    ∀ r, (slots strict).adm o B r → Q r c ((slots strict).next o B r)) : Guarded strict (ask o) c B Q := by
  refine fun l => ⟨?_,fun r hr => h.2 r hr⟩
  cases o with
  | busy blk on => exact h.1.elim
  | _ => exact h.1

end Rules

section MarksKept

-- What a call leaves alone from when it gets the lock.
structure Same (c c' : Ctx) : Prop where
  isopen : c'.isopen = c.isopen
  shared : c'.shared = c.shared
  lckcnt : c'.lckcnt = c.lckcnt
  root : c'.super.scroot = c.super.scroot
  mode : c'.super.smode = c.super.smode

omit [Build] in
theorem Same.refl (c : Ctx) : Same c c := ⟨rfl,rfl,rfl,rfl,rfl⟩

omit [Build] in
theorem Same.trans (h : Same c c') (h' : Same c' c'') : Same c c'' :=
  ⟨h'.isopen.trans h.isopen,h'.shared.trans h.shared,h'.lckcnt.trans h.lckcnt,h'.root.trans h.root,
    h'.mode.trans h.mode⟩

def Held (c : Ctx) : Prop := c.shared = true → 0 < c.lckcnt

omit [Build] in
theorem Held.same (h : Held c) (hs : Same c c') : Held c' := fun hc => by
  rw [hs.lckcnt]
  exact h (hs.shared.symm.trans hc)

-- Beside the busy blocks there are `k` slots at least.
def Spare (strict : Prop) (k : Nat) (B : Finset Int) : Prop := strict → B.card + k ≤ ZMXBLK

-- No block becomes busy.
def Fewer (strict : Prop) (B B' : Finset Int) : Prop := strict → B' ⊆ B

omit [Build] in
theorem Fewer.refl (B : Finset Int) : Fewer strict B B := fun _ => Finset.Subset.refl B

omit [Build] in
theorem Fewer.trans (h : Fewer strict B B') (h' : Fewer strict B' B'') : Fewer strict B B'' :=
  fun hs => (h' hs).trans (h hs)

theorem Spare.fewer {k : Nat} (h : Spare strict k B) (hf : Fewer strict B B') : Spare strict k B' :=
  fun hs => (Nat.add_le_add_right (Finset.card_le_card (hf hs)) k).trans (h hs)

theorem Spare.slot {k : Nat} (h : Spare strict k B) (hk : 0 < k) (hs : strict) : B.card < ZMXBLK := by
  have := h hs
  omega

-- With `k` slots to spare, and the lock of a shared handle held, `x` asks for slots only where there
-- are some, and leaves the handle and the marks as they were.
def MarksKept (strict : Prop) (k : Nat) (x : BT α) : Prop :=
  ∀ c B, Held c → Spare strict k B → Guarded strict x c B fun _ c' B' => Same c c' ∧ Fewer strict B B'

variable {k : Nat}

theorem MarksKept.bind (hx : MarksKept strict k x) (hf : ∀ a, MarksKept strict k (f a)) :
    MarksKept strict k (x >>= f) := by
  intro c B hc hB
  refine (hx c B hc hB).bind fun a c' B' h => ?_
  refine (hf a c' B' (hc.same h.1) (hB.fewer h.2)).mono fun b c'' B'' h' => ?_
  exact ⟨h.1.trans h'.1,h.2.trans h'.2⟩

theorem MarksKept.mono {l : Nat} (h : MarksKept strict k x) (hl : k ≤ l) : MarksKept strict l x :=
  fun c B hc hB => h c B hc fun hs => (Nat.add_le_add_left hl _).trans (hB hs)

theorem MarksKept.ite {p : Prop} [Decidable p] {y : BT α} (hx : MarksKept strict k x) (hy : MarksKept strict k y) :
    MarksKept strict k (if p then x else y) := by
  split
  · exact hx
  · exact hy

@[simp] theorem MarksKept.pure (a : α) : MarksKept strict k (pure a : BT α) := fun c B _ _ =>
  guarded_pure.2 ⟨Same.refl c,Fewer.refl B⟩

@[simp] theorem MarksKept.get : MarksKept strict k (get : BT Ctx) := fun c B _ _ =>
  guarded_get.2 ⟨Same.refl c,Fewer.refl B⟩

@[simp] theorem MarksKept.hang : MarksKept strict k (hang : BT α) := fun _ _ _ _ _ => trivial

@[simp] theorem MarksKept.map (hx : MarksKept strict k x) (g : α → β) : MarksKept strict k (g <$> x) := by
  rw [map_eq_pure_bind]
  exact hx.bind fun a => .pure (g a)

theorem MarksKept.modify {f : Ctx → Ctx} (h : ∀ c, Same c (f c)) : MarksKept strict k (modify f : BT Unit) :=
  fun c B _ _ => guarded_modify.2 ⟨h c,Fewer.refl B⟩

@[simp] theorem MarksKept.setLf (f : Lf → Lf) : MarksKept strict k (setLf f) :=
  .modify fun _ => ⟨rfl,rfl,rfl,rfl,rfl⟩

@[simp] theorem MarksKept.setStk (f : List Int → List Int) : MarksKept strict k (setStk f) :=
  .modify fun _ => ⟨rfl,rfl,rfl,rfl,rfl⟩

@[simp] theorem MarksKept.setErr (f : Err → Err) : MarksKept strict k (setErr f) :=
  .modify fun _ => ⟨rfl,rfl,rfl,rfl,rfl⟩

@[simp] theorem MarksKept.setSuper {f : Super → Super} (hr : ∀ p, (f p).scroot = p.scroot)
    (hm : ∀ p, (f p).smode = p.smode) : MarksKept strict k (setSuper f) :=
  .modify fun c => ⟨rfl,rfl,rfl,hr c.super,hm c.super⟩

@[simp] theorem marksKept_keyent (e : KeyEnt) :
    MarksKept strict k (modify fun c => { c with keyent := e } : BT Unit) :=
  .modify fun _ => ⟨rfl,rfl,rfl,rfl,rfl⟩

theorem MarksKept.ask {o : Op} (hok : ∀ B, Spare strict k B → (slots strict).ok o B)
    (hnext : ∀ B r, (slots strict).next o B r = B) : MarksKept strict k (ask o) := fun c B _ hB =>
  guarded_ask ⟨hok B hB,fun r _ => ⟨Same.refl c,by rw [hnext]; exact Fewer.refl B⟩⟩

@[simp] theorem marksKept_bterr (name : String) (code : Int) (arg : Arg) :
    MarksKept strict k (bterr name code arg) :=
  .bind (.ask (fun _ _ => trivial) fun _ _ => rfl) fun _ => .setErr _

@[simp] theorem marksKept_bterr0 : MarksKept strict k bterr0 := .setErr _

@[simp] theorem marksKept_btgerr : MarksKept strict k btgerr := .bind .get fun _ => .pure _

@[simp] theorem marksKept_wr (blk : Int) (b : Block) (n : Int) : MarksKept strict k (wr blk b n) :=
  .ask (fun _ _ => trivial) fun _ _ => rfl

@[simp] theorem marksKept_mark (blk : Int) : MarksKept strict k (mark blk) :=
  .ask (fun _ _ => trivial) fun _ _ => rfl

@[simp] theorem marksKept_bwrblk (blk : Int) : MarksKept strict k (bwrblk blk) :=
  .ask (fun _ _ => trivial) fun _ _ => rfl

@[simp] theorem marksKept_writeThrough (blk : Int) : MarksKept strict k (writeThrough blk) :=
  .bind .get fun _ => .ite (.ask (fun _ _ => trivial) fun _ _ => rfl) (.pure _)

@[simp] theorem marksKept_brdblk (hk : 0 < k) (blk : Int) : MarksKept strict k (brdblk blk) := by
  refine .bind (.ask (fun B hB hs => Or.inr (hB.slot hk hs)) fun _ _ => rfl) fun r => ?_
  exact .ite (.bind (marksKept_bterr _ _ _) fun _ => .pure _) (.pure _)

end MarksKept

section Marks

theorem guarded_gaveUp {Q : Unit → Ctx → Finset Int → Prop} {name : String} (h : GivesUp name)
    (code : Int) (arg : Arg) (hQ : ∀ c', Same c c' → ¬ strict → Q () c' B) :
    Guarded strict (bterr name code arg) c B Q := by
  refine guarded_bind (guarded_ask ⟨trivial,fun _ hr => guarded_modify.2 (hQ _ ?_ ?_)⟩)
  · exact ⟨rfl,rfl,rfl,rfl,rfl⟩
  · exact fun hs => hr hs h

theorem guarded_brdblk (blk : Int) (hs : strict → blk ∈ B ∨ B.card < ZMXBLK) :
    Guarded strict (brdblk blk) c B fun r c' B' => Same c c' ∧ B' = B ∧
      (strict → (blk ∈ B → r ≠ none) ∧ (blk < ZNULL → r = none)) := by
  refine guarded_bind (guarded_ask ⟨hs,fun r hr => ?_⟩)
  rw [guarded_ite]
  split
  · refine guarded_bind (guarded_bind (guarded_ask ⟨trivial,fun _ _ => ?_⟩))
    exact guarded_modify.2 (guarded_pure.2 ⟨⟨rfl,rfl,rfl,rfl,rfl⟩,rfl,hr⟩)
  · exact guarded_pure.2 ⟨Same.refl c,rfl,hr⟩

theorem guarded_bsetbs (blk : Int) (on : Bool) {Q : Unit → Ctx → Finset Int → Prop}
    (hs : strict → blk ∈ B ∨ B.card < ZMXBLK) (hno : ∀ c', Same c c' → (strict → blk ∉ B) → Q () c' B)
    (hyes : ∀ c', Same c c' → Q () c' (if on then insert blk B else B.erase blk)) :
    Guarded strict (bsetbs blk on) c B Q := by
  intro last
  refine ⟨hs,fun r hr => ?_⟩
  have hrep : (slots strict).adm (.rd blk) B r → ∀ b, r.1 = b → b = none → strict → blk ∉ B :=
    fun hr b hb hn h0 hmem => (hr h0).1 hmem (hb.trans hn)
  obtain ⟨b,lost⟩ := r
  cases lost <;> cases b
  · exact ⟨trivial,fun _ _ => hno _ ⟨rfl,rfl,rfl,rfl,rfl⟩ (hrep hr none rfl rfl)⟩
  · exact ⟨fun _ => rfl,fun _ _ => hyes _ ⟨rfl,rfl,rfl,rfl,rfl⟩⟩
  · exact ⟨trivial,fun _ _ => ⟨trivial,fun _ _ => hno _ ⟨rfl,rfl,rfl,rfl,rfl⟩ (hrep hr none rfl rfl)⟩⟩
  · exact ⟨trivial,fun _ _ => ⟨fun _ => rfl,fun _ _ => hyes _ ⟨rfl,rfl,rfl,rfl,rfl⟩⟩⟩

theorem guarded_bsetbs_true (blk : Int) (hs : strict → blk ∈ B ∨ B.card < ZMXBLK) :
    Guarded strict (bsetbs blk true) c B fun _ c' B' => Same c c' ∧ (B' = insert blk B ∨ B' = B) :=
  guarded_bsetbs blk true hs (fun _ h _ => ⟨h,Or.inr rfl⟩) fun _ h => ⟨h,Or.inl rfl⟩

theorem guarded_bsetbs_false (blk : Int) (hs : strict → blk ∈ B ∨ B.card < ZMXBLK) :
    Guarded strict (bsetbs blk false) c B fun _ c' B' => Same c c' ∧
      (strict → B' ⊆ B.erase blk) := by
  refine guarded_bsetbs blk false hs (fun _ h hn => ⟨h,fun h0 => ?_⟩) fun _ h =>
    ⟨h,fun _ => Finset.Subset.refl _⟩
  rw [Finset.erase_eq_of_notMem (hn h0)]

end Marks

end Btlib
