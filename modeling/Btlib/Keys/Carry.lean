import Btlib.Walk.Carry
import Btlib.Source.Roots

namespace Btlib

open Prog

-- A relation that does not tell what the calls on keys and roots do to a handle.
structure Working (R : Ctx → Ctx → Prop) : Prop extends Handling R where
  super : ∀ c p, R c { c with super := p }
  lckcnt : ∀ c n, R c { c with lckcnt := n }

variable {R : Ctx → Ctx → Prop} {α β : Type} (hW : Working R)
include hW

@[simp] theorem carries_setSuper (f : Super → Super) : Carries R (setSuper f) := carries_modify fun _ => hW.super _ _

theorem Working.relock (f : Ctx → Int) : Carries R (modify fun c => { c with lckcnt := f c } : BT Unit) :=
  carries_modify fun _ => hW.lckcnt _ _

section Functions

@[simp] theorem carries_setRoot (blk : Int) : Carries R (setRoot blk) := carries_setSuper hW _

@[simp] theorem carries_smodUp : Carries R smodUp := carries_setSuper hW _

variable [Build]

@[simp] theorem carries_bgtfre : Carries R bgtfre := by
  have hR := hW.toHandling
  unfold bgtfre
  with_reducible repeat' first
    | refine hR.bterr (by decide)
    | refine hR.bind ?_ fun _ => ?_
    | refine .ite ?_ ?_
    | split
  all_goals first | exact hR.ask _ | simp [hW, hR]

theorem Working.searching : Searching R := ⟨hW.toHandling,carries_bgtfre hW⟩

@[simp] theorem carries_bmkfre (blk : Int) : Carries R (bmkfre blk) := by
  have hR := hW.toHandling
  unfold bmkfre
  with_reducible repeat' first
    | refine hR.bterr (by decide)
    | refine hR.bind ?_ fun _ => ?_
    | refine .ite ?_ ?_
    | split
  all_goals simp [hW, hR]

omit [Build] in
@[simp] theorem carries_bremky (blk pos : Int) : Carries R (bremky blk pos) := by
  have hR := hW.toHandling
  unfold bremky
  with_reducible repeat' first
    | refine hR.bterr (by decide)
    | refine hR.bind ?_ fun _ => ?_
    | refine .ite ?_ ?_
    | split
  all_goals simp [hR]

@[simp] theorem carries_bleafLoop (dir : Int) (n : Nat) (b : Block) :
    Carries R (bleafLoop dir n b) := by
  have hR := hW.toHandling
  induction n generalizing b with
  | zero => exact carries_hang
  | succ n ih =>
      unfold bleafLoop
      with_reducible repeat' first
        | refine hR.bterr (by decide)
        | refine hR.bind ?_ fun _ => ?_
        | refine .ite ?_ ?_
        | split
      all_goals simp [hR, ih]

@[simp] theorem carries_bleaf (dir : Int) : Carries R (bleaf dir) := by
  have hR := hW.toHandling
  unfold bleaf
  with_reducible repeat' first
    | refine hR.bterr (by decide)
    | refine hR.bind ?_ fun _ => ?_
    | refine .ite ?_ ?_
    | split
  all_goals simp [hW, hR]

@[simp] theorem carries_brdsup : Carries R (brdsup) := by
  have hR := hW.toHandling
  unfold brdsup
  with_reducible repeat' first
    | refine hR.bterr (by decide)
    | refine hR.bind ?_ fun _ => ?_
    | refine .ite ?_ ?_
    | split
  all_goals simp [hW, hR]

@[simp] theorem carries_bwrsup : Carries R (bwrsup) := by
  have hR := hW.toHandling
  unfold bwrsup
  with_reducible repeat' first
    | refine hR.bterr (by decide)
    | refine hR.bind ?_ fun _ => ?_
    | refine .ite ?_ ?_
    | split
  all_goals first | exact hR.ask _ | simp [hR]

@[simp] theorem carries_btsync : Carries R (btsync) := by
  have hR := hW.toHandling
  unfold btsync
  with_reducible repeat' first
    | refine hR.bterr (by decide)
    | refine hR.bind ?_ fun _ => ?_
    | refine .ite ?_ ?_
    | split
  all_goals first | exact hR.ask _ | simp [hW, hR]

@[simp] theorem carries_block : Carries R (block) := by
  have hR := hW.toHandling
  unfold block
  with_reducible repeat' first
    | refine hR.bterr (by decide)
    | refine hR.bind ?_ fun _ => ?_
    | refine .ite ?_ ?_
    | split
  all_goals first | exact hR.ask _ | exact hW.relock _ | simp [hW, hR]

@[simp] theorem carries_bulock : Carries R (bulock) := by
  have hR := hW.toHandling
  unfold bulock
  with_reducible repeat' first
    | refine hR.bterr (by decide)
    | refine hR.bind ?_ fun _ => ?_
    | refine .ite ?_ ?_
    | split
  all_goals first | exact hR.ask _ | exact hW.relock _ | simp [hW]

@[simp] theorem carries_leave : Carries R (leave) := by
  have hR := hW.toHandling
  unfold leave
  with_reducible repeat' first
    | refine hR.bterr (by decide)
    | refine hR.bind ?_ fun _ => ?_
    | refine .ite ?_ ?_
    | split
  all_goals simp [hW, hR]

@[simp] theorem carries_enter (fn : String) : Carries R (enter fn) := by
  have hR := hW.toHandling
  unfold enter
  with_reducible repeat' first
    | refine hR.bterr (by decide)
    | refine hR.bind ?_ fun _ => ?_
    | refine .ite ?_ ?_
    | split
  all_goals simp [hW, hR]

theorem carries_within (fn : String) (busy : α) {body : BT α} (hbody : Carries R body) :
    Carries R (within fn busy body) :=
  have hR := hW.toHandling
  hR.bind (carries_enter hW fn) fun _ => .ite hbody (carries_ret hR _)

theorem carries_locked (fn : String) (busy : α) {body : BT α} (hbody : Carries R body) :
    Carries R (locked fn busy body) :=
  have hR := hW.toHandling
  hR.bind (carries_within hW fn busy hbody) fun _ => hR.bind (carries_leave hW) fun _ => carries_ret hR _

omit [Build] in
theorem carries_api (fn : String) (bad : Int → α) {body : BT α} (hbody : Carries R body) :
    Carries R (api fn bad body) := by
  have hR := hW.toHandling
  unfold api bvalap
  with_reducible repeat' first
    | refine hR.bterr (by decide)
    | refine hR.bind ?_ fun _ => ?_
    | refine .ite ?_ ?_
    | split
  all_goals first | exact hbody | simp [hR]

@[simp] theorem carries_bfndky (key : Key) : Carries R (bfndky key) := by
  have hR := hW.toHandling
  refine carries_api hW _ _ (hR.bind (carries_locked hW _ _ (carries_bfndkySearch hW.searching key)) fun _ => ?_)
  with_reducible repeat' first
    | refine hR.bterr (by decide)
    | refine hR.bind ?_ fun _ => ?_
    | refine .ite ?_ ?_
    | split
  all_goals simp [hR]

omit [Build] in
@[simp] theorem carries_setPos (f : Int → Int) : Carries R (setPos f) := carries_setLf hW.toHandling _

omit [Build] in
@[simp] theorem carries_bsrhlf : Carries R (bsrhlf) := by
  have hR := hW.toHandling
  unfold bsrhlf
  with_reducible repeat' first
    | refine hR.bterr (by decide)
    | refine hR.bind ?_ fun _ => ?_
    | refine .ite ?_ ?_
    | split
  all_goals simp [hW, hR]

omit [Build] in
@[simp] theorem carries_pushParent (cblk : Int) : Carries R (pushParent cblk) := by
  have hR := hW.toHandling
  unfold pushParent
  with_reducible repeat' first
    | refine hR.bterr (by decide)
    | refine hR.bind ?_ fun _ => ?_
    | refine .ite ?_ ?_
    | split
  all_goals simp [hR]

@[simp] theorem carries_bjoin (lblk rblk : Int) (ke : KeyEnt) : Carries R (bjoin lblk rblk ke) := by
  have hR := hW.toHandling
  unfold bjoin
  with_reducible repeat' first
    | refine hR.bterr (by decide)
    | refine hR.bind ?_ fun _ => ?_
    | refine .ite ?_ ?_
    | split
  all_goals simp [hW, hR]

@[simp] theorem carries_joinLeft (cblk cnkeys : Int) : Carries R (bjnblk.joinLeft cblk cnkeys) := by
  have hR := hW.toHandling
  unfold bjnblk.joinLeft
  with_reducible repeat' first
    | refine hR.bterr (by decide)
    | refine hR.bind ?_ fun _ => ?_
    | refine .ite ?_ ?_
    | split
  all_goals simp [hW, hR]

@[simp] theorem carries_bjnblk : Carries R (bjnblk) := by
  have hR := hW.toHandling
  unfold bjnblk
  with_reducible repeat' first
    | refine hR.bterr (by decide)
    | refine hR.bind ?_ fun _ => ?_
    | refine .ite ?_ ?_
    | split
  all_goals simp [hW, hR]

@[simp] theorem carries_moveKeys (fblk tblk dir : Int) (n : Nat) (keypos : Int) :
    Carries R (moveKeys fblk tblk dir n keypos) := by
  have hR := hW.toHandling
  induction n generalizing keypos with
  | zero => exact carries_ret hR _
  | succ n ih =>
      unfold moveKeys
      with_reducible repeat' first
        | refine hR.bterr (by decide)
        | refine hR.bind ?_ fun _ => ?_
        | refine .ite ?_ ?_
        | split
      all_goals simp [hW, hR, ih]

@[simp] theorem carries_balbk1Move (lblk rblk fblk tblk dir : Int) (half : Nat) (keypos : Int)
    (ke : KeyEnt) : Carries R (balbk1Move lblk rblk fblk tblk dir half keypos ke) := by
  have hR := hW.toHandling
  unfold balbk1Move
  with_reducible repeat' first
    | refine hR.bterr (by decide)
    | refine hR.bind ?_ fun _ => ?_
    | refine .ite ?_ ?_
    | split
  all_goals simp [hW, hR]

@[simp] theorem carries_balbk1 (lblk rblk diff : Int) (ke : KeyEnt) : Carries R (balbk1 lblk rblk diff ke) := by
  have hR := hW.toHandling
  unfold balbk1
  with_reducible repeat' first
    | refine hR.bterr (by decide)
    | refine hR.bind ?_ fun _ => ?_
    | refine .ite ?_ ?_
    | split
  all_goals simp [hW, hR]

@[simp] theorem carries_balLeft (cblk cnkeys : Int) : Carries R (balblk.balLeft cblk cnkeys) := by
  have hR := hW.toHandling
  unfold balblk.balLeft
  with_reducible repeat' first
    | refine hR.bterr (by decide)
    | refine hR.bind ?_ fun _ => ?_
    | refine .ite ?_ ?_
    | split
  all_goals simp [hW, hR]

@[simp] theorem carries_balblk : Carries R (balblk) := by
  have hR := hW.toHandling
  unfold balblk
  with_reducible repeat' first
    | refine hR.bterr (by decide)
    | refine hR.bind ?_ fun _ => ?_
    | refine .ite ?_ ?_
    | split
  all_goals simp [hW, hR]

@[simp] theorem carries_bdemteParent (cblk : Int) : Carries R (bdemteParent cblk) := by
  have hR := hW.toHandling
  unfold bdemteParent
  with_reducible repeat' first
    | refine hR.bterr (by decide)
    | refine hR.bind ?_ fun _ => ?_
    | refine .ite ?_ ?_
    | split
  all_goals simp [hW, hR, hW.searching]

@[simp] theorem carries_bdemte (cblk : Int) : Carries R (bdemte cblk) := by
  have hR := hW.toHandling
  unfold bdemte
  with_reducible repeat' first
    | refine hR.bterr (by decide)
    | refine hR.bind ?_ fun _ => ?_
    | refine .ite ?_ ?_
    | split
  all_goals simp [hW, hR]

@[simp] theorem carries_bdemteLoop (n : Nat) (cblk : Int) :
    Carries R (bdemteLoop n cblk) := by
  have hR := hW.toHandling
  induction n generalizing cblk with
  | zero => exact carries_hang
  | succ n ih =>
      unfold bdemteLoop
      with_reducible repeat' first
        | refine hR.bterr (by decide)
        | refine hR.bind ?_ fun _ => ?_
        | refine .ite ?_ ?_
        | split
      all_goals simp [hW, hR, ih]

@[simp] theorem carries_replaceByLast (blk pos : Int) (r : Srh) : Carries R (replaceByLast blk pos r) := by
  have hR := hW.toHandling
  unfold replaceByLast
  with_reducible repeat' first
    | refine hR.bterr (by decide)
    | refine hR.bind ?_ fun _ => ?_
    | refine .ite ?_ ?_
    | split
  all_goals simp [hW, hR]

@[simp] theorem carries_mergeUp : Carries R (mergeUp) := by
  have hR := hW.toHandling
  unfold mergeUp
  with_reducible repeat' first
    | refine hR.bterr (by decide)
    | refine hR.bind ?_ fun _ => ?_
    | refine .ite ?_ ?_
    | split
  all_goals simp [hW]

@[simp] theorem carries_bdelk1Leaf : Carries R (bdelk1Leaf) := by
  have hR := hW.toHandling
  unfold bdelk1Leaf
  with_reducible repeat' first
    | refine hR.bterr (by decide)
    | refine hR.bind ?_ fun _ => ?_
    | refine .ite ?_ ?_
    | split
  all_goals simp [hW, hR]

-- The last found key goes whatever it is.
@[simp] theorem carries_bdelk1Key : Carries R (bdelk1Key none) := by
  have hR := hW.toHandling
  unfold bdelk1Key
  simp only [Option.any_none, Bool.false_eq_true, if_false]
  with_reducible repeat' first
    | refine hR.bterr (by decide)
    | refine hR.bind ?_ fun _ => ?_
    | refine .ite ?_ ?_
    | split
  all_goals simp [hW, hR]

@[simp] theorem carries_bnxtbkLoop (n : Nat) (blk : Int) :
    Carries R (bnxtbkLoop n blk) := by
  have hR := hW.toHandling
  induction n generalizing blk with
  | zero => exact carries_hang
  | succ n ih =>
      unfold bnxtbkLoop
      with_reducible repeat' first
        | refine hR.bterr (by decide)
        | refine hR.bind ?_ fun _ => ?_
        | refine .ite ?_ ?_
        | split
      all_goals simp [hW, hR, ih]

@[simp] theorem carries_bnxtbkStart : Carries R (bnxtbkStart) := by
  have hR := hW.toHandling
  unfold bnxtbkStart
  with_reducible repeat' first
    | refine hR.bterr (by decide)
    | refine hR.bind ?_ fun _ => ?_
    | refine .ite ?_ ?_
    | split
  all_goals simp [hW, hR]

@[simp] theorem carries_bnxtbk (blk : Int) : Carries R (bnxtbk blk) := by
  have hR := hW.toHandling
  unfold bnxtbk
  with_reducible repeat' first
    | refine hR.bterr (by decide)
    | refine hR.bind ?_ fun _ => ?_
    | refine .ite ?_ ?_
    | split
  all_goals simp [hW]

@[simp] theorem carries_freeDataLoop (n : Nat) (blk : Int) :
    Carries R (freeDataLoop n blk) := by
  have hR := hW.toHandling
  induction n generalizing blk with
  | zero => exact carries_hang
  | succ n ih =>
      unfold freeDataLoop
      with_reducible repeat' first
        | refine hR.bterr (by decide)
        | refine hR.bind ?_ fun _ => ?_
        | refine .ite ?_ ?_
        | split
      all_goals simp [hW, hR, ih]

@[simp] theorem carries_freeIndexLoop (n : Nat) (blk : Int) :
    Carries R (freeIndexLoop n blk) := by
  have hR := hW.toHandling
  induction n generalizing blk with
  | zero => exact carries_hang
  | succ n ih =>
      unfold freeIndexLoop
      with_reducible repeat' first
        | refine hR.bterr (by decide)
        | refine hR.bind ?_ fun _ => ?_
        | refine .ite ?_ ?_
        | split
      all_goals simp [hW, hR, ih]

@[simp] theorem carries_freeRoot (blk : Int) : Carries R (freeRoot blk) := by
  have hR := hW.toHandling
  unfold freeRoot
  with_reducible repeat' first
    | refine hR.bterr (by decide)
    | refine hR.bind ?_ fun _ => ?_
    | refine .ite ?_ ?_
    | split
  all_goals simp [hW, hR]

end Functions

end Btlib
