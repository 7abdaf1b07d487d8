import Btlib.Theory.Alike
import Btlib.Cache.Busy
import Btlib.Source.Keys

namespace Btlib

open Prog

-- A shared handle that holds the lock.
def Ctx.withLock (c : Ctx) (n : Int) : Ctx := { c with shared := true, lckcnt := n }

-- Such a handle beside an exclusive one that is like it otherwise. Where `p` says so, neither stands at a duplicate: a
-- duplicate that is gone is nothing unusual to a shared handle.
structure LikeOwn (p : Prop) (n : Int) (c c' : Ctx) : Prop where
  shared : c'.shared = false
  draddr : p → c'.lf.draddr = ZNULL
  withLock : c = c'.withLock n

-- What a call is at: it has not asked for the lock yet, it holds it, it has given it back, or it has not got it.
inductive Phase where
  | waiting | inside | outside | refused
deriving DecidableEq

-- The file is only looked at with the lock, which is asked for once and given back once.
def latch : Protocol Op Res Phase where
  adm _ _ _ := True
  ok
    | .lock, t => t = .waiting
    | .unlock, t => t = .inside
    | .report name _, t => t = .inside ∨ ((t = .outside ∨ t = .refused) ∧ ¬ (GivesUp name ∨ name = "BPUSH"))
    | _, t => t = .inside
  next
    | .lock, _, r => if r then .inside else .refused
    | .unlock, _, _ => .outside
    | _, t, _ => t

def Inner : Op → Prop
  | .lock | .unlock => False
  | _ => True

-- A program that never touches the lock of a handle of its own.
def Inside {α : Type} (x : BT α) : Prop :=
  ∀ c, c.shared = false → (x c).Guard latch (fun r t => r.2.shared = false ∧ t = .inside) .inside

-- A program that does not hear of the lock: it asks the same on both handles, and they stay alike. The lock is held
-- `l` times at least.
structure IgnoresLock {α : Type} (p : Prop) (l : Int) (x : BT α) : Prop where
  alike : ∀ n, l ≤ n → Alike (LikeOwn p n) (fun _ => LikeOwn p n) x x
  inside : Inside x

variable {α β : Type} {p q : Prop} {l : Int} {x : BT α}

theorem LikeOwn.weaken {n : Int} {c c' : Ctx} (h : LikeOwn p n c c') (hpq : q → p) : LikeOwn q n c c' :=
  ⟨h.shared,fun hq => h.draddr (hpq hq),h.withLock⟩

namespace Inside

theorem bind {f : α → BT β} (hx : Inside x) (hf : ∀ a, Inside (f a)) : Inside (x >>= f) := fun c hc =>
  (guard_bind _ _ _).2 ((hx c hc).mono fun r _ hr => hr.2 ▸ hf r.1 r.2 hr.1)

theorem ite {r : Prop} [Decidable r] {y : BT α} (hx : Inside x) (hy : Inside y) : Inside (if r then x else y) := by
  split
  · exact hx
  · exact hy

theorem get {f : Ctx → BT β} (hf : ∀ c, Inside (f c)) : Inside (get >>= f) := fun c hc => hf c c hc

theorem modify {f : Ctx → Ctx} (hs : ∀ c, (f c).shared = c.shared) : Inside (modify f : BT Unit) := fun c hc =>
  ⟨(hs c).trans hc,rfl⟩

theorem setLf (f : Lf → Lf) : Inside (setLf f) := .modify fun _ => rfl

theorem pure (a : α) : Inside (Pure.pure a : BT α) := fun _ hc => ⟨hc,rfl⟩

theorem ask {o : Op} (h : Inner o) : Inside (ask o) := by
  intro c hc
  cases o with
  | lock => exact h.elim
  | unlock => exact h.elim
  | report name code => exact ⟨Or.inl rfl,fun _ _ => ⟨hc,rfl⟩⟩
  | _ => exact ⟨rfl,fun _ _ => ⟨hc,rfl⟩⟩

end Inside

namespace IgnoresLock

theorem bind {f : α → BT β} (hx : IgnoresLock p l x) (hf : ∀ a, IgnoresLock p l (f a)) : IgnoresLock p l (x >>= f) :=
  ⟨fun n hn => Alike.bind (hx.alike n hn) fun a => (hf a).alike n hn,hx.inside.bind fun a => (hf a).inside⟩

theorem ite {r : Prop} [Decidable r] {y : BT α} (hx : IgnoresLock p l x) (hy : IgnoresLock p l y) : IgnoresLock p l (if r then x else y) :=
  ⟨fun n hn => Alike.ite (fun _ => hx.alike n hn) fun _ => hy.alike n hn,hx.inside.ite hy.inside⟩

@[simp] theorem pure (a : α) : IgnoresLock p l (Pure.pure a : BT α) := ⟨fun _ _ => alike_pure fun _ _ h => h,.pure a⟩

@[simp] theorem hang : IgnoresLock p l (hang : BT α) := ⟨fun _ _ _ _ _ => .hang,fun _ _ => trivial⟩

theorem ask {o : Op} (h : Inner o) : IgnoresLock p l (ask o) := ⟨fun _ _ _ _ h => .op o fun _ => .ret ⟨rfl,h⟩,.ask h⟩

theorem get {f : Ctx → BT β} (hf : ∀ c, IgnoresLock p l (f c)) (hq : ∀ c n, f (c.withLock n) = f c) : IgnoresLock p l (get >>= f) := by
  refine ⟨fun n hn => alike_get ?_,.get fun c => (hf c).inside⟩
  rintro _ c ⟨-,-,rfl⟩
  rw [hq]
  exact (hf c).alike n hn

theorem modify {f : Ctx → Ctx} (hs : ∀ c, (f c).shared = c.shared) (hd : ∀ c, c.lf.draddr = ZNULL → (f c).lf.draddr = ZNULL)
    (hq : ∀ c n, f (c.withLock n) = (f c).withLock n) : IgnoresLock p l (modify f : BT Unit) := by
  refine ⟨fun n _ => alike_modify ?_,.modify hs⟩
  rintro _ c ⟨hc,hp,rfl⟩
  exact ⟨(hs c).trans hc,fun h => hd c (hp h),hq c n⟩

@[simp] theorem setLf {f : Lf → Lf} (hd : ∀ lf, lf.draddr = ZNULL → (f lf).draddr = ZNULL) : IgnoresLock p l (setLf f) :=
  modify (fun _ => rfl) (fun _ => hd _) fun _ _ => rfl

@[simp] theorem setStk (f : List Int → List Int) : IgnoresLock p l (setStk f) := modify (fun _ => rfl) (fun _ => id) fun _ _ => rfl

@[simp] theorem setSuper (f : Super → Super) : IgnoresLock p l (setSuper f) := modify (fun _ => rfl) (fun _ => id) fun _ _ => rfl

theorem guard {n : Int} {c c' : Ctx} (hx : IgnoresLock p l x) (hn : l ≤ n) (h : LikeOwn p n c c') :
    (x c).Guard latch (fun r t => (∃ c', LikeOwn p n r.2 c') ∧ t = .inside) .inside :=
  ((hx.alike n hn c c' h).guard (hx.inside c' h.shared)).mono fun _ _ ⟨b,hb,ht⟩ => ⟨⟨b.2,hb.2⟩,ht.2⟩

end IgnoresLock

section Blocks

@[simp] theorem ignoresLock_keyent (e : KeyEnt) : IgnoresLock p l (modify fun c => { c with keyent := e } : BT Unit) :=
  .modify (fun _ => rfl) (fun _ => id) fun _ _ => rfl

@[simp] theorem ignoresLock_bterr (name : String) (code : Int) (arg : Arg) : IgnoresLock p l (bterr name code arg) :=
  .bind ((.ask trivial)) fun _ => .modify (fun _ => rfl) (fun _ => id) fun _ _ => rfl

@[simp] theorem ignoresLock_bterr0 : IgnoresLock p l bterr0 := .modify (fun _ => rfl) (fun _ => id) fun _ _ => rfl

@[simp] theorem ignoresLock_btgerr : IgnoresLock p l btgerr := .get (fun _ => .pure _) fun _ _ => rfl

@[simp] theorem ignoresLock_wr (blk : Int) (b : Block) (n : Int) : IgnoresLock p l (wr blk b n) := .ask trivial

@[simp] theorem ignoresLock_mark (blk : Int) : IgnoresLock p l (mark blk) := .ask trivial

@[simp] theorem ignoresLock_bwrblk (blk : Int) : IgnoresLock p l (bwrblk blk) := .ask trivial

@[simp] theorem ignoresLock_bclrlf : IgnoresLock p l bclrlf := .setLf fun _ _ => rfl

@[simp] theorem ignoresLock_bstkin : IgnoresLock p l bstkin := .setStk _

@[simp] theorem ignoresLock_brdblk (blk : Int) : IgnoresLock p l (brdblk blk) := by
  unfold brdblk
  with_reducible repeat' first
    | refine .get (fun _ => ?_) fun _ _ => rfl
    | refine .bind ?_ fun _ => ?_
    | refine .ite ?_ ?_
    | split
  all_goals first | exact .ask trivial | simp

@[simp] theorem ignoresLock_writeThrough (blk : Int) : IgnoresLock p l (writeThrough blk) := by
  unfold writeThrough
  with_reducible repeat' first
    | refine .get (fun _ => ?_) fun _ _ => rfl
    | refine .bind ?_ fun _ => ?_
    | refine .ite ?_ ?_
    | split
  all_goals first | exact .ask trivial | simp

@[simp] theorem ignoresLock_bsetbs (blk : Int) (on : Bool) : IgnoresLock p l (bsetbs blk on) := by
  unfold bsetbs
  with_reducible repeat' first
    | refine .get (fun _ => ?_) fun _ _ => rfl
    | refine .bind ?_ fun _ => ?_
    | refine .ite ?_ ?_
    | split
  all_goals first | exact .ask trivial | simp

@[simp] theorem ignoresLock_bpush (val : Int) : IgnoresLock p l (bpush val) := by
  unfold bpush
  with_reducible repeat' first
    | refine .get (fun _ => ?_) fun _ _ => rfl
    | refine .bind ?_ fun _ => ?_
    | refine .ite ?_ ?_
    | split
  all_goals simp

@[simp] theorem ignoresLock_bpull : IgnoresLock p l bpull := by
  unfold bpull
  with_reducible repeat' first
    | refine .get (fun _ => ?_) fun _ _ => rfl
    | refine .bind ?_ fun _ => ?_
    | refine .ite ?_ ?_
    | split
  all_goals simp

@[simp] theorem ignoresLock_pullParent : IgnoresLock p l pullParent := by
  unfold pullParent
  with_reducible repeat' first
    | refine .get (fun _ => ?_) fun _ _ => rfl
    | refine .bind ?_ fun _ => ?_
    | refine .ite ?_ ?_
    | split
  all_goals simp

@[simp] theorem ignoresLock_bsrhbk (blk : Int) (o : Srh) : IgnoresLock p l (bsrhbk blk o) := by
  unfold bsrhbk
  with_reducible repeat' first
    | refine .get (fun _ => ?_) fun _ _ => rfl
    | refine .bind ?_ fun _ => ?_
    | refine .ite ?_ ?_
    | split
  all_goals simp

@[simp] theorem ignoresLock_bremky (blk pos : Int) : IgnoresLock p l (bremky blk pos) := by
  unfold bremky
  with_reducible repeat' first
    | refine .get (fun _ => ?_) fun _ _ => rfl
    | refine .bind ?_ fun _ => ?_
    | refine .ite ?_ ?_
    | split
  all_goals simp

@[simp] theorem ignoresLock_bcpybk (tblk fblk ts fs n : Int) : IgnoresLock p l (bcpybk tblk fblk ts fs n) := by
  unfold bcpybk
  with_reducible repeat' first
    | refine .get (fun _ => ?_) fun _ _ => rfl
    | refine .bind ?_ fun _ => ?_
    | refine .ite ?_ ?_
    | split
  all_goals simp

variable [Build]

@[simp] theorem ignoresLock_bgtinf (blk : Int) (type : Inf) : IgnoresLock p l (bgtinf blk type) := by
  unfold bgtinf
  with_reducible repeat' first
    | refine .get (fun _ => ?_) fun _ _ => rfl
    | refine .bind ?_ fun _ => ?_
    | refine .ite ?_ ?_
    | split
  all_goals simp

@[simp] theorem ignoresLock_bstinf (blk : Int) (type : Inf) (val : Int) : IgnoresLock p l (bstinf blk type val) := by
  unfold bstinf
  with_reducible repeat' first
    | refine .get (fun _ => ?_) fun _ _ => rfl
    | refine .bind ?_ fun _ => ?_
    | refine .ite ?_ ?_
    | split
  all_goals simp

@[simp] theorem ignoresLock_bsetbk (blk type misc nxblk nkeys nblks dupblk : Int) :
    IgnoresLock p l (bsetbk blk type misc nxblk nkeys nblks dupblk) := by
  unfold bsetbk
  with_reducible repeat' first
    | refine .get (fun _ => ?_) fun _ _ => rfl
    | refine .bind ?_ fun _ => ?_
    | refine .ite ?_ ?_
    | split
  all_goals simp

@[simp] theorem ignoresLock_bputky (blk : Int) (ke : KeyEnt) (link1 link2 : Int) : IgnoresLock p l (bputky blk ke link1 link2) := by
  unfold bputky
  with_reducible repeat' first
    | refine .get (fun _ => ?_) fun _ _ => rfl
    | refine .bind ?_ fun _ => ?_
    | refine .ite ?_ ?_
    | split
  all_goals simp

@[simp] theorem ignoresLock_brepky (blk loc : Int) (ke : KeyEnt) (link1 link2 : Int) :
    IgnoresLock p l (brepky blk loc ke link1 link2) := by
  unfold brepky
  with_reducible repeat' first
    | refine .get (fun _ => ?_) fun _ _ => rfl
    | refine .bind ?_ fun _ => ?_
    | refine .ite ?_ ?_
    | split
  all_goals simp

@[simp] theorem ignoresLock_bgtfre : IgnoresLock p l bgtfre := by
  unfold bgtfre
  with_reducible repeat' first
    | refine .get (fun _ => ?_) fun _ _ => rfl
    | refine .bind ?_ fun _ => ?_
    | refine .ite ?_ ?_
    | split
  all_goals first | exact .ask trivial | simp

@[simp] theorem ignoresLock_bmkfre (blk : Int) : IgnoresLock p l (bmkfre blk) := by
  unfold bmkfre
  with_reducible repeat' first
    | refine .get (fun _ => ?_) fun _ _ => rfl
    | refine .bind ?_ fun _ => ?_
    | refine .ite ?_ ?_
    | split
  all_goals simp

@[simp] theorem ignoresLock_bsptbk (blk : Int) : IgnoresLock p l (bsptbk blk) := by
  unfold bsptbk
  with_reducible repeat' first
    | refine .get (fun _ => ?_) fun _ _ => rfl
    | refine .bind ?_ fun _ => ?_
    | refine .ite ?_ ?_
    | split
  all_goals simp

@[simp] theorem ignoresLock_bleafLoop (dir : Int) (n : Nat) (b : Block) : IgnoresLock p l (bleafLoop dir n b) := by
  induction n generalizing b with
  | zero => exact .hang
  | succ n ih =>
      unfold bleafLoop
      with_reducible repeat' first
        | refine .get (fun _ => ?_) fun _ _ => rfl
        | refine .bind ?_ fun _ => ?_
        | refine .ite ?_ ?_
        | split
      all_goals simp [ih]

@[simp] theorem ignoresLock_bleaf (dir : Int) : IgnoresLock p l (bleaf dir) := by
  unfold bleaf
  with_reducible repeat' first
    | refine .get (fun _ => ?_) fun _ _ => rfl
    | refine .bind ?_ fun _ => ?_
    | refine .ite ?_ ?_
    | split
  all_goals simp

end Blocks

section Data

variable [Build]

@[simp] theorem ignoresLock_getseginfo (draddr : Int) : IgnoresLock p l (getseginfo draddr) := by
  unfold getseginfo
  with_reducible repeat' first
    | refine .get (fun _ => ?_) fun _ _ => rfl
    | refine .bind ?_ fun _ => ?_
    | refine .ite ?_ ?_
    | split
  all_goals simp

@[simp] theorem ignoresLock_mkdblk (type : Int) : IgnoresLock p l (mkdblk type) := by
  unfold mkdblk
  with_reducible repeat' first
    | refine .get (fun _ => ?_) fun _ _ => rfl
    | refine .bind ?_ fun _ => ?_
    | refine .ite ?_ ?_
    | split
  all_goals simp

@[simp] theorem ignoresLock_insdat (blk : Int) (data : List Byte) (prevseg : Int) : IgnoresLock p l (insdat blk data prevseg) := by
  unfold insdat
  with_reducible repeat' first
    | refine .get (fun _ => ?_) fun _ _ => rfl
    | refine .bind ?_ fun _ => ?_
    | refine .ite ?_ ?_
    | split
  all_goals simp

@[simp] theorem ignoresLock_binsdtLoop (type : Int) (data : List Byte) (minsegsize : Int) (n : Nat)
    (dblk segptr remsize segaddr : Int) : IgnoresLock p l (binsdtLoop type data minsegsize n dblk segptr remsize segaddr) := by
  induction n generalizing dblk segptr remsize segaddr with
  | zero => exact .hang
  | succ n ih =>
      unfold binsdtLoop
      with_reducible repeat' first
        | refine .get (fun _ => ?_) fun _ _ => rfl
        | refine .bind ?_ fun _ => ?_
        | refine .ite ?_ ?_
        | split
      all_goals simp [ih]

@[simp] theorem ignoresLock_binsdt (type : Int) (data : List Byte) : IgnoresLock p l (binsdt type data) := by
  unfold binsdt
  with_reducible repeat' first
    | refine .get (fun _ => ?_) fun _ _ => rfl
    | refine .bind ?_ fun _ => ?_
    | refine .ite ?_ ?_
    | split
  all_goals simp

@[simp] theorem ignoresLock_deldat (blk offset : Int) : IgnoresLock p l (deldat blk offset) := by
  unfold deldat
  with_reducible repeat' first
    | refine .get (fun _ => ?_) fun _ _ => rfl
    | refine .bind ?_ fun _ => ?_
    | refine .ite ?_ ?_
    | split
  all_goals simp

@[simp] theorem ignoresLock_bdeldtLoop (n : Nat) (draddr status : Int) : IgnoresLock p l (bdeldtLoop n draddr status) := by
  induction n generalizing draddr status with
  | zero => exact .hang
  | succ n ih =>
      unfold bdeldtLoop
      with_reducible repeat' first
        | refine .get (fun _ => ?_) fun _ _ => rfl
        | refine .bind ?_ fun _ => ?_
        | refine .ite ?_ ?_
        | split
      all_goals simp [ih]

@[simp] theorem ignoresLock_bdeldt (draddr : Int) : IgnoresLock p l (bdeldt draddr) := ignoresLock_bdeldtLoop _ _ _

@[simp] theorem ignoresLock_bupddtLoop (n : Nat) (draddr : Int) (data : List Byte) (remsz dblk offset type : Int) :
    IgnoresLock p l (bupddtLoop n draddr data remsz dblk offset type) := by
  induction n generalizing draddr data remsz dblk offset type with
  | zero => exact .hang
  | succ n ih =>
      unfold bupddtLoop
      with_reducible repeat' first
        | refine .get (fun _ => ?_) fun _ _ => rfl
        | refine .bind ?_ fun _ => ?_
        | refine .ite ?_ ?_
        | split
      all_goals simp [ih]

@[simp] theorem ignoresLock_bupddt (draddr : Int) (data : List Byte) : IgnoresLock p l (bupddt draddr data) := by
  unfold bupddt
  with_reducible repeat' first
    | refine .get (fun _ => ?_) fun _ _ => rfl
    | refine .bind ?_ fun _ => ?_
    | refine .ite ?_ ?_
    | split
  all_goals simp

@[simp] theorem ignoresLock_bseldtLoop (n : Nat) (draddr sprem : Int) (buf : List Byte) :
    IgnoresLock p l (bseldtLoop n draddr sprem buf) := by
  induction n generalizing draddr sprem buf with
  | zero => exact .hang
  | succ n ih =>
      unfold bseldtLoop
      with_reducible repeat' first
        | refine .get (fun _ => ?_) fun _ _ => rfl
        | refine .bind ?_ fun _ => ?_
        | refine .ite ?_ ?_
        | split
      all_goals simp [ih]

@[simp] theorem ignoresLock_bseldt (draddr dsize : Int) : IgnoresLock p l (bseldt draddr dsize) := ignoresLock_bseldtLoop _ _ _ _

end Data

section Dups

variable [Build]

omit [Build] in
@[simp] theorem ignoresLock_getkeyent (blk pos : Int) : IgnoresLock p l (getkeyent blk pos) := by
  unfold getkeyent
  with_reducible repeat' first
    | refine .get (fun _ => ?_) fun _ _ => rfl
    | refine .bind ?_ fun _ => ?_
    | refine .ite ?_ ?_
    | split
  all_goals simp

omit [Build] in
@[simp] theorem ignoresLock_putkeyent (blk pos : Int) (ke : KeyEnt) : IgnoresLock p l (putkeyent blk pos ke) := by
  unfold putkeyent
  with_reducible repeat' first
    | refine .get (fun _ => ?_) fun _ _ => rfl
    | refine .bind ?_ fun _ => ?_
    | refine .ite ?_ ?_
    | split
  all_goals simp

@[simp] theorem ignoresLock_getdkey (draddr : Int) : IgnoresLock p l (getdkey draddr) := by
  unfold getdkey
  with_reducible repeat' first
    | refine .get (fun _ => ?_) fun _ _ => rfl
    | refine .bind ?_ fun _ => ?_
    | refine .ite ?_ ?_
    | split
  all_goals simp

@[simp] theorem ignoresLock_putdkey (draddr : Int) (dkey : DKey) : IgnoresLock p l (putdkey draddr dkey) := by
  unfold putdkey
  with_reducible repeat' first
    | refine .get (fun _ => ?_) fun _ _ => rfl
    | refine .bind ?_ fun _ => ?_
    | refine .ite ?_ ?_
    | split
  all_goals simp

@[simp] theorem ignoresLock_btdupkeyAdd (key : Key) (val cblk n : Int) (ke : KeyEnt) :
    IgnoresLock p l (btdupkeyAdd key val cblk n ke) := by
  unfold btdupkeyAdd
  with_reducible repeat' first
    | refine .get (fun _ => ?_) fun _ _ => rfl
    | refine .bind ?_ fun _ => ?_
    | refine .ite ?_ ?_
    | split
  all_goals simp

@[simp] theorem ignoresLock_btdupkey (key : Key) (val : Int) : IgnoresLock p l (btdupkey key val) := by
  unfold btdupkey
  with_reducible repeat' first
    | refine .get (fun _ => ?_) fun _ _ => rfl
    | refine .bind ?_ fun _ => ?_
    | refine .ite ?_ ?_
    | split
  all_goals simp

@[simp] theorem ignoresLock_btdupupd (val : Int) : IgnoresLock p l (btdupupd val) := by
  unfold btdupupd
  with_reducible repeat' first
    | refine .get (fun _ => ?_) fun _ _ => rfl
    | refine .bind ?_ fun _ => ?_
    | refine .ite ?_ ?_
    | split
  all_goals simp

end Dups

end Btlib
