import Btlib.Theory.Always
import Btlib.Source.Keys
import Btlib.Machine.Plain

namespace Btlib

open Prog

-- A relation between a handle before and after that does not tell the last found position and most errors.
structure Handling (R : Ctx → Ctx → Prop) : Prop where
  drift : Drift R
  lf : ∀ c lf, R c { c with lf := lf }
  stk : ∀ c stk, R c { c with stk := stk }
  keyent : ∀ c ke, R c { c with keyent := ke }
  err : ∀ c e, e = c.err ∨ e.qerror ≠ QDELER → R c { c with err := e }

-- And not what a search does to the file either.
structure Searching [Build] (R : Ctx → Ctx → Prop) : Prop extends Handling R where
  grow : Carries R bgtfre

variable {R : Ctx → Ctx → Prop} {α β : Type} (hR : Handling R)
include hR

namespace Handling

theorem bind {x : BT α} {f : α → BT β} (hx : Carries R x) (hf : ∀ a, Carries R (f a)) : Carries R (x >>= f) :=
  Carries.bind hR.drift hx hf

theorem ask (o : Op) : Carries R (ask o) := fun c _ => hR.drift.refl c

theorem bterr {name : String} {code : Int} {arg : Arg} (hcode : code ≠ QDELER) : Carries R (bterr name code arg) := by
  refine hR.bind (hR.ask _) fun _ => carries_modify fun c => hR.err c _ ?_
  dsimp only
  split
  · exact Or.inr hcode
  · exact Or.inl rfl

end Handling

section Functions

@[simp] theorem carries_ret (a : α) : Carries R (pure a : BT α) := carries_pure hR.drift a

@[simp] theorem carries_state : Carries R (get : BT Ctx) := carries_get hR.drift

omit hR in
@[simp] theorem carries_hang : Carries R (hang : BT α) := fun _ => trivial

@[simp] theorem carries_setLf (f : Lf → Lf) : Carries R (setLf f) := carries_modify fun _ => hR.lf _ _

@[simp] theorem carries_setStk (f : List Int → List Int) : Carries R (setStk f) := carries_modify fun _ => hR.stk _ _

@[simp] theorem carries_keyent (f : Ctx → KeyEnt) : Carries R (modify fun c => { c with keyent := f c } : BT Unit) :=
  carries_modify fun _ => hR.keyent _ _

@[simp] theorem carries_bterr0 : Carries R bterr0 :=
  have hne : (0 : Int) ≠ QDELER := by decide
  carries_modify fun c => hR.err c _ (Or.inr hne)

@[simp] theorem carries_btgerr : Carries R btgerr := hR.bind (carries_state hR) fun _ => carries_ret hR _

@[simp] theorem carries_brdblk (blk : Int) : Carries R (brdblk blk) := by
  unfold brdblk
  with_reducible repeat' first
    | refine hR.bterr (by decide)
    | refine hR.bind ?_ fun _ => ?_
    | refine .ite ?_ ?_
    | split
  all_goals first | exact hR.ask _ | simp [hR]

@[simp] theorem carries_wr (blk : Int) (b : Block) (n : Int) : Carries R (wr blk b n) := hR.ask _

@[simp] theorem carries_mark (blk : Int) : Carries R (mark blk) := hR.ask _

@[simp] theorem carries_writeThrough (blk : Int) : Carries R (writeThrough blk) := by
  unfold writeThrough
  with_reducible repeat' first
    | refine hR.bterr (by decide)
    | refine hR.bind ?_ fun _ => ?_
    | refine .ite ?_ ?_
    | split
  all_goals first | exact hR.ask _ | simp [hR]

@[simp] theorem carries_bsetbs (blk : Int) (on : Bool) : Carries R (bsetbs blk on) := by
  unfold bsetbs
  with_reducible repeat' first
    | refine hR.bterr (by decide)
    | refine hR.bind ?_ fun _ => ?_
    | refine .ite ?_ ?_
    | split
  all_goals first | exact hR.ask _ | simp [hR]

@[simp] theorem carries_bclrlf : Carries R bclrlf := carries_setLf hR _

@[simp] theorem carries_bstkin : Carries R bstkin := carries_setStk hR _

@[simp] theorem carries_bpush (val : Int) : Carries R (bpush val) := by
  unfold bpush
  with_reducible repeat' first
    | refine hR.bterr (by decide)
    | refine hR.bind ?_ fun _ => ?_
    | refine .ite ?_ ?_
    | split
  all_goals simp [hR]

@[simp] theorem carries_bpull : Carries R (bpull) := by
  unfold bpull
  with_reducible repeat' first
    | refine hR.bterr (by decide)
    | refine hR.bind ?_ fun _ => ?_
    | refine .ite ?_ ?_
    | split
  all_goals simp [hR]

variable [Build]

@[simp] theorem carries_bgtinf (blk : Int) (type : Inf) : Carries R (bgtinf blk type) := by
  unfold bgtinf
  with_reducible repeat' first
    | refine hR.bterr (by decide)
    | refine hR.bind ?_ fun _ => ?_
    | refine .ite ?_ ?_
    | split
  all_goals simp [hR]

@[simp] theorem carries_bstinf (blk : Int) (type : Inf) (val : Int) : Carries R (bstinf blk type val) := by
  unfold bstinf
  with_reducible repeat' first
    | refine hR.bterr (by decide)
    | refine hR.bind ?_ fun _ => ?_
    | refine .ite ?_ ?_
    | split
  all_goals simp [hR]

@[simp] theorem carries_bsetbk (blk type misc nxblk nkeys nblks dupblk : Int) :
    Carries R (bsetbk blk type misc nxblk nkeys nblks dupblk) := by
  unfold bsetbk
  with_reducible repeat' first
    | refine hR.bterr (by decide)
    | refine hR.bind ?_ fun _ => ?_
    | refine .ite ?_ ?_
    | split
  all_goals simp [hR]

omit [Build] in
@[simp] theorem carries_pullParent : Carries R (pullParent) := by
  unfold pullParent
  with_reducible repeat' first
    | refine hR.bterr (by decide)
    | refine hR.bind ?_ fun _ => ?_
    | refine .ite ?_ ?_
    | split
  all_goals simp [hR]

omit [Build] in
@[simp] theorem carries_bsrhbk (blk : Int) (o : Srh) : Carries R (bsrhbk blk o) := by
  unfold bsrhbk
  with_reducible repeat' first
    | refine hR.bterr (by decide)
    | refine hR.bind ?_ fun _ => ?_
    | refine .ite ?_ ?_
    | split
  all_goals simp [hR]

@[simp] theorem carries_bputky (blk : Int) (ke : KeyEnt) (link1 link2 : Int) :
    Carries R (bputky blk ke link1 link2) := by
  unfold bputky
  with_reducible repeat' first
    | refine hR.bterr (by decide)
    | refine hR.bind ?_ fun _ => ?_
    | refine .ite ?_ ?_
    | split
  all_goals simp [hR]

@[simp] theorem carries_brepky (blk loc : Int) (ke : KeyEnt) (link1 link2 : Int) :
    Carries R (brepky blk loc ke link1 link2) := by
  unfold brepky
  with_reducible repeat' first
    | refine hR.bterr (by decide)
    | refine hR.bind ?_ fun _ => ?_
    | refine .ite ?_ ?_
    | split
  all_goals simp [hR]

omit [Build] in
@[simp] theorem carries_bcpybk (tblk fblk ts fs n : Int) : Carries R (bcpybk tblk fblk ts fs n) := by
  unfold bcpybk
  with_reducible repeat' first
    | refine hR.bterr (by decide)
    | refine hR.bind ?_ fun _ => ?_
    | refine .ite ?_ ?_
    | split
  all_goals simp [hR]

@[simp] theorem carries_bseldtLoop (n : Nat) (draddr sprem : Int) (buf : List Byte) :
    Carries R (bseldtLoop n draddr sprem buf) := by
  induction n generalizing draddr sprem buf with
  | zero => exact carries_hang
  | succ n ih =>
      unfold bseldtLoop
      with_reducible repeat' first
        | refine hR.bterr (by decide)
        | refine hR.bind ?_ fun _ => ?_
        | refine .ite ?_ ?_
        | split
      all_goals simp [hR, ih]

@[simp] theorem carries_getdkey (draddr : Int) : Carries R (getdkey draddr) := by
  unfold getdkey bseldt
  with_reducible repeat' first
    | refine hR.bterr (by decide)
    | refine hR.bind ?_ fun _ => ?_
    | refine .ite ?_ ?_
    | split
  all_goals simp [hR]

omit [Build] in
@[simp] theorem carries_getkeyent (blk pos : Int) : Carries R (getkeyent blk pos) := by
  unfold getkeyent
  with_reducible repeat' first
    | refine hR.bterr (by decide)
    | refine hR.bind ?_ fun _ => ?_
    | refine .ite ?_ ?_
    | split
  all_goals simp [hR]

omit [Build] in
@[simp] theorem carries_btdupposFound (newaddr : Int) (dkey : DKey) : Carries R (btdupposFound newaddr dkey) :=
  hR.bind (carries_setLf hR _) fun _ => carries_ret hR _

@[simp] theorem carries_btdupposLoop (direction val : Int) (n : Nat) (dkey : DKey) :
    Carries R (btdupposLoop direction val n dkey) := by
  induction n generalizing dkey with
  | zero => exact carries_hang
  | succ n ih =>
      unfold btdupposLoop
      with_reducible repeat' first
        | refine hR.bterr (by decide)
        | refine hR.bind ?_ fun _ => ?_
        | refine .ite ?_ ?_
        | split
      all_goals simp [hR, ih]

@[simp] theorem carries_btduppos (direction val : Int) : Carries R (btduppos direction val) := by
  unfold btduppos
  with_reducible repeat' first
    | refine hR.bterr (by decide)
    | refine hR.bind ?_ fun _ => ?_
    | refine .ite ?_ ?_
    | split
  all_goals simp [hR]

end Functions

section Search

omit hR

variable [Build] (hS : Searching R)
include hS

@[simp] theorem carries_bsptbk (blk : Int) : Carries R (bsptbk blk) := by
  have hR := hS.toHandling
  unfold bsptbk
  with_reducible repeat' first
    | refine hR.bterr (by decide)
    | refine hR.bind ?_ fun _ => ?_
    | refine .ite ?_ ?_
    | split
  all_goals first | exact hS.grow | simp [hR]

@[simp] theorem carries_bfndkyLoop (n : Nat) (cblk : Int) (o : Srh) :
    Carries R (bfndkyLoop n cblk o) := by
  have hR := hS.toHandling
  induction n generalizing cblk o with
  | zero => exact carries_hang
  | succ n ih =>
      unfold bfndkyLoop
      with_reducible repeat' first
        | refine hR.bterr (by decide)
        | refine hR.bind ?_ fun _ => ?_
        | refine .ite ?_ ?_
        | split
      all_goals simp [hR, hS, ih]

@[simp] theorem carries_bfndkySearch (key : Key) : Carries R (bfndkySearch key) := by
  have hR := hS.toHandling
  unfold bfndkySearch
  with_reducible repeat' first
    | refine hR.bterr (by decide)
    | refine hR.bind ?_ fun _ => ?_
    | refine .ite ?_ ?_
    | split
  all_goals simp [hR, hS]

end Search

omit hR in
theorem carries_exec {x : BT α} (hx : Carries R x) (s : St) {r : α × St} (h : exec x s = .done r) :
    R s.ctx r.2.ctx := by
  have hw := (hx s.ctx).within plain s.disk
  rw [Btlib.exec] at h
  cases hr : (x s.ctx).run plain s.disk with
  | done a =>
      rw [hr] at hw h
      cases h
      exact hw
  | stuck o d =>
      rw [hr] at h
      cases h
  | hung =>
      rw [hr] at h
      cases h

end Btlib
