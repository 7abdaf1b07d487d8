import Btlib.Theory.Alike
import Btlib.Index.Order
import Btlib.Source.World

namespace Btlib

open Prog

-- Two handles that differ in the argument of a reported error alone.
def SameButArg (c c' : Ctx) : Prop := c' = c ∨ c.err.qerror ≠ 0 ∧ ∃ a, c' = { c with err.qarg := a }

theorem SameButArg.refl (c : Ctx) : SameButArg c c := Or.inl rfl

-- A program that does not look at the argument.
def IgnoresArg {α : Type} (x : BT α) : Prop := Alike SameButArg (fun _ => SameButArg) x x

variable {α β : Type} {x y : BT α}

namespace IgnoresArg

theorem bind {f : α → BT β} (hx : IgnoresArg x) (hf : ∀ a, IgnoresArg (f a)) : IgnoresArg (x >>= f) := Alike.bind hx hf

theorem ite {p : Prop} [Decidable p] (hx : IgnoresArg x) (hy : IgnoresArg y) : IgnoresArg (if p then x else y) :=
  Alike.ite (fun _ => hx) fun _ => hy

@[simp] theorem pure (a : α) : IgnoresArg (Pure.pure a : BT α) := alike_pure fun _ _ h => h

@[simp] theorem hang : IgnoresArg (hang : BT α) := fun _ _ _ => .hang

@[simp] theorem ask (o : Op) : IgnoresArg (ask o) := fun _ _ h => .op o fun _ => .ret ⟨rfl,h⟩

theorem get {f : Ctx → BT β} (hf : ∀ c, IgnoresArg (f c)) (hq : ∀ c a, f { c with err.qarg := a } = f c) :
    IgnoresArg (get >>= f) := by
  refine alike_get ?_
  rintro c _ (rfl | ⟨-,a,rfl⟩)
  · exact hf _
  · exact (congrArg (Alike SameButArg (fun _ => SameButArg) (f c)) (hq c a)).mpr (hf c)

theorem modify {f : Ctx → Ctx} (hf : ∀ c, (f c).err = c.err)
    (hq : ∀ c a, f { c with err.qarg := a } = { f c with err.qarg := a }) : IgnoresArg (modify f : BT Unit) := by
  refine alike_modify ?_
  rintro c _ (rfl | ⟨he,a,rfl⟩)
  · exact .refl _
  · exact Or.inr ⟨by rwa [hf],a,hq c a⟩

@[simp] theorem setLf (f : Lf → Lf) : IgnoresArg (setLf f) := modify (fun _ => rfl) fun _ _ => rfl

@[simp] theorem setSuper (f : Super → Super) : IgnoresArg (setSuper f) := modify (fun _ => rfl) fun _ _ => rfl

end IgnoresArg

section Functions

@[simp] theorem ignoresArg_bterr (name : String) (code : Int) (arg : Arg) : IgnoresArg (bterr name code arg) := by
  refine .bind (.ask _) fun _ => alike_modify ?_
  rintro c _ (rfl | ⟨he,a,rfl⟩)
  · exact .refl _
  · simp only [he, if_false]
    exact Or.inr ⟨he,a,rfl⟩

@[simp] theorem ignoresArg_bterr0 : IgnoresArg bterr0 := by
  refine alike_modify ?_
  rintro c _ (rfl | ⟨-,a,rfl⟩)
  · exact .refl _
  · exact .refl _

@[simp] theorem ignoresArg_btgerr : IgnoresArg btgerr := .get (fun _ => .pure _) fun _ _ => rfl

@[simp] theorem ignoresArg_brdblk (blk : Int) : IgnoresArg (brdblk blk) := by
  unfold brdblk
  with_reducible repeat' first | refine .bind ?_ fun _ => ?_ | refine .ite ?_ ?_
  all_goals first | exact .ask _ | simp

@[simp] theorem ignoresArg_wr (blk : Int) (b : Block) (n : Int) : IgnoresArg (wr blk b n) := .ask _

@[simp] theorem ignoresArg_mark (blk : Int) : IgnoresArg (mark blk) := .ask _

@[simp] theorem ignoresArg_bwrblk (blk : Int) : IgnoresArg (bwrblk blk) := .ask _

@[simp] theorem ignoresArg_writeThrough (blk : Int) : IgnoresArg (writeThrough blk) := by
  refine .get (fun _ => .ite ?_ ?_) fun _ _ => rfl
  · exact .ask _
  · exact .pure _

@[simp] theorem ignoresArg_bsetbs (blk : Int) (on : Bool) : IgnoresArg (bsetbs blk on) := by
  refine .bind (ignoresArg_brdblk blk) fun r => ?_
  cases r with
  | none => exact ignoresArg_bterr _ _ _
  | some b => exact .ask _

@[simp] theorem ignoresArg_bclrlf : IgnoresArg bclrlf := .setLf _

variable [Build]

@[simp] theorem ignoresArg_bgtinf (blk : Int) (type : Inf) : IgnoresArg (bgtinf blk type) := by
  unfold bgtinf
  with_reducible repeat' first | refine .bind ?_ fun _ => ?_ | split
  all_goals simp

@[simp] theorem ignoresArg_bstinf (blk : Int) (type : Inf) (val : Int) : IgnoresArg (bstinf blk type val) := by
  unfold bstinf
  with_reducible repeat' first | refine .bind ?_ fun _ => ?_ | split
  all_goals simp

@[simp] theorem ignoresArg_bsetbk (blk type misc nxblk nkeys nblks dupblk : Int) :
    IgnoresArg (bsetbk blk type misc nxblk nkeys nblks dupblk) := by
  unfold bsetbk
  with_reducible repeat' first | refine .bind ?_ fun _ => ?_ | split
  all_goals simp

@[simp] theorem ignoresArg_bmkfre (blk : Int) : IgnoresArg (bmkfre blk) := by
  unfold bmkfre
  with_reducible repeat' first
    | refine .get (fun _ => ?_) fun _ _ => rfl
    | refine .bind ?_ fun _ => ?_
    | refine .ite ?_ ?_
  all_goals simp

@[simp] theorem ignoresArg_getseginfo (draddr : Int) : IgnoresArg (getseginfo draddr) := by
  unfold getseginfo
  with_reducible repeat' first | refine .bind ?_ fun _ => ?_ | split
  all_goals simp

@[simp] theorem ignoresArg_deldat (blk offset : Int) : IgnoresArg (deldat blk offset) := by
  unfold deldat
  with_reducible repeat' first
    | refine .get (fun _ => ?_) fun _ _ => rfl
    | refine .bind ?_ fun _ => ?_
    | refine .ite ?_ ?_
    | split
  all_goals simp

@[simp] theorem ignoresArg_bdeldtLoop (n : Nat) (draddr status : Int) : IgnoresArg (bdeldtLoop n draddr status) := by
  induction n generalizing draddr status with
  | zero => exact .hang
  | succ n ih =>
      unfold bdeldtLoop
      with_reducible repeat' first | refine .bind ?_ fun _ => ?_ | refine .ite ?_ ?_ | split
      all_goals simp [ih]

@[simp] theorem ignoresArg_bdeldt (draddr : Int) : IgnoresArg (bdeldt draddr) := ignoresArg_bdeldtLoop _ _ _

@[simp] theorem ignoresArg_bwrsup : IgnoresArg bwrsup := by
  unfold bwrsup
  with_reducible repeat' first
    | refine .get (fun _ => ?_) fun _ _ => rfl
    | refine .bind ?_ fun _ => ?_
    | refine .ite ?_ ?_
    | split
  all_goals simp

@[simp] theorem ignoresArg_btsync : IgnoresArg btsync := by
  unfold btsync
  with_reducible repeat' first
    | refine .get (fun _ => ?_) fun _ _ => rfl
    | refine .bind ?_ fun _ => ?_
    | refine .ite ?_ ?_
    | split
  all_goals first | exact .ask _ | simp

@[simp] theorem ignoresArg_bulock : IgnoresArg bulock := by
  unfold bulock
  with_reducible repeat' first
    | refine .get (fun _ => ?_) fun _ _ => rfl
    | refine .bind ?_ fun _ => ?_
    | refine .ite ?_ ?_
  all_goals first | exact .ask _ | exact .modify (fun _ => rfl) fun _ _ => rfl | simp

@[simp] theorem ignoresArg_leave : IgnoresArg leave := .get (fun _ => .ite ignoresArg_bulock (.pure _)) fun _ _ => rfl

end Functions

section Keys

variable [Build]

theorem bfndky_keycpy (key : Key) : bfndky (keycpy key) = bfndky key := by
  simp only [bfndky, bfndkySearch, keycpy_keycpy]

theorem binskyPut_keycpy (key : Key) (val : Int) (found : Bool) :
    binskyPut (keycpy key) val found = binskyPut key val found := by
  simp only [binskyPut, btdupkey, btdupkeyAdd, keycpy_keycpy]

-- What is kept of a call that may have reported: it has not if it returns 0.
def Answers (a : Int) (c c' : Ctx) : Prop := SameButArg c c' ∧ (a = 0 → c' = c)

omit [Build] in
theorem alike_bterr (name : String) {code : Int} (arg arg' : Arg) (hcode : code ≠ 0) :
    Alike Eq (fun _ => SameButArg) (bterr name code arg) (bterr name code arg') := by
  refine .bind (Q := fun _ c c' => c = c') (.self _ fun _ _ => rfl) fun _ => alike_modify ?_
  rintro c _ rfl
  by_cases h0 : c.err.qerror = 0
  · simp only [h0, if_true]
    exact Or.inr ⟨hcode,arg',rfl⟩
  · simp only [h0, if_false]
    exact .refl _

omit [Build] in
theorem alike_btgerr : Alike SameButArg Answers btgerr btgerr := by
  rintro c _ (rfl | ⟨he,a,rfl⟩)
  · exact .ret ⟨rfl,.refl _,fun _ => rfl⟩
  · exact .ret ⟨rfl,Or.inr ⟨he,a,rfl⟩,fun h0 => absurd h0 he⟩

omit [Build] in
theorem alike_api {fn : String} {bad : Int → α} {Q : α → Ctx → Ctx → Prop} (hbad : ∀ a c, Q a c c)
    (hbody : Alike Eq Q x y) : Alike Eq Q (api fn bad x) (api fn bad y) := by
  unfold api
  refine .bind (Q := fun _ => Eq) (.self _ fun _ _ => rfl) fun _ => ?_
  refine .bind (Q := fun _ => Eq) (.self _ fun _ _ => rfl) fun _ => ?_
  exact .ite (fun _ => .self _ hbad) fun _ => hbody

theorem alike_within {fn : String} {busy : α} {Q : α → Ctx → Ctx → Prop} (hbusy : ∀ a c, Q a c c)
    (hbody : Alike Eq Q x y) : Alike Eq Q (within fn busy x) (within fn busy y) := by
  unfold within
  refine .bind (Q := fun _ => Eq) (.self _ fun _ _ => rfl) fun _ => ?_
  exact .ite (fun _ => hbody) fun _ => .self _ hbusy

theorem alike_binsky (key : Key) (val : Int) : Alike Eq Answers (binsky key val) (binsky (keycpy key) val) := by
  refine alike_api (fun _ c => ⟨.refl c,fun _ => rfl⟩) (.bind (Q := fun _ => SameButArg) ?_ fun _ => alike_btgerr)
  refine .bind (Q := fun _ => SameButArg) ?_ fun _ => .bind ignoresArg_leave fun _ => IgnoresArg.pure _
  refine alike_within (Q := fun _ => SameButArg) (fun _ => .refl) (alike_get ?_)
  rintro c _ rfl
  refine .ite (fun _ => .self _ fun _ => .refl) fun _ => ?_
  refine .bind (Q := fun _ => Eq) (.self _ fun _ _ => rfl) fun dups_allowed => ?_
  rw [keycpy_keycpy]
  refine .bind (Q := fun _ => Eq) (.self _ fun _ _ => rfl) fun r => ?_
  refine .ite (fun _ => ?_) fun _ => alike_bterr _ _ _ (by decide)
  rw [binskyPut_keycpy]
  exact .self _ fun _ => .refl

-- The error a call of `btins` ends with is reported again.
theorem alike_btinsPut (key : Key) (data : List Byte) :
    Alike Eq (fun _ => SameButArg) (btinsPut key data) (btinsPut (keycpy key) data) := by
  refine .bind (Q := fun _ => Eq) (.self _ fun _ _ => rfl) fun draddr => ?_
  refine .ite (fun _ => .ite (fun _ => .self _ fun _ => .refl) fun _ => ?_) fun _ => .self _ fun _ => .refl
  refine .bind (alike_binsky key draddr) fun status => .ite (fun hs => ?_) fun hs => alike_pure fun _ _ h => h.1
  refine .bind (Q := fun _ => Eq) (alike_modify ?_) fun _ => ?_
  · rintro c _ ⟨rfl | ⟨-,a,rfl⟩,-⟩ <;> rfl
  · exact .bind (alike_bterr _ _ _ hs) fun _ => .bind (ignoresArg_bdeldt draddr) fun _ => IgnoresArg.pure _

theorem alike_btins (key : Key) (data : List Byte) (dsize : Int) :
    Alike Eq (fun _ => SameButArg) (btins key data dsize) (btins (keycpy key) data dsize) := by
  refine alike_api (fun _ c => .refl c) (.bind (Q := fun _ => SameButArg) ?_ fun _ => ignoresArg_btgerr)
  refine .bind (Q := fun _ => Eq) (.self _ fun _ _ => rfl) fun ok => ?_
  refine .ite (fun _ => .self _ fun _ => .refl) fun _ => .bind (Q := fun _ => SameButArg) ?_ fun _ => ignoresArg_leave
  refine alike_within (Q := fun _ => SameButArg) (fun _ => .refl) (alike_get ?_)
  rintro c _ rfl
  refine .ite (fun _ => .self _ fun _ => .refl) fun _ => .ite (fun _ => alike_btinsPut _ _) fun _ => .self _ fun _ => .refl

theorem btcrtrBlock_keycpy (root : Key) : btcrtrBlock (keycpy root) = btcrtrBlock root := by
  simp only [btcrtrBlock, bupdky, modifyKey, findKey, bfndky_keycpy, setRootName, keycpy_keycpy]

theorem alike_btcrtr (root : Key) : Alike Eq (fun _ => SameButArg) (btcrtr root) (btcrtr (keycpy root)) := by
  refine alike_api (fun _ c => .refl c) (.bind (Q := fun _ => SameButArg) ?_ fun _ => ignoresArg_btgerr)
  refine .bind (Q := fun _ => SameButArg) ?_ fun _ => .bind ignoresArg_leave fun _ => IgnoresArg.pure _
  refine alike_within (Q := fun _ => SameButArg) (fun _ => .refl) (alike_get ?_)
  rintro c _ rfl
  refine .bind (Q := fun _ => Eq) (.self _ fun _ _ => rfl) fun _ => ?_
  refine .bind (Q := fun _ => Eq) (.self _ fun _ _ => rfl) fun _ => ?_
  refine .bind (Q := fun _ => Eq) (.self _ fun _ _ => rfl) fun _ => ?_
  refine .bind (alike_binsky root ZNULL) fun status => ?_
  rw [btcrtrBlock_keycpy]
  by_cases hs : status = 0
  · -- nothing was reported, so the two handles are the same
    rintro d d' ⟨-,hd⟩
    obtain rfl := hd hs
    exact .self _ fun r => ⟨rfl,.refl _⟩
  · simp only [if_neg hs]
    have hign : IgnoresArg (do
        smodUp
        bsetbs ZSUPER false
        bclrlf
        setRoot c.super.scroot
        bsetbs c.super.scroot true) := by
      unfold smodUp setRoot
      with_reducible repeat' refine .bind ?_ fun _ => ?_
      all_goals simp
    exact fun d d' hd => hign d d' hd.1

end Keys

end Btlib
