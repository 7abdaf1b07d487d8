import Btlib.Cache.SlotFactsBlocks

namespace Btlib

variable [Build]

section Data

@[simp] theorem keepsFacts_getseginfo (draddr : Int) : KeepsFacts (getseginfo draddr) := by
  unfold getseginfo
  with_reducible repeat' first | refine .bind ?_ fun _ => ?_ | refine .ite ?_ ?_ | split
  all_goals simp

@[simp] theorem keepsFacts_mkdblk (type : Int) : KeepsFacts (mkdblk type) := by
  unfold mkdblk
  with_reducible repeat' first | refine .bind ?_ fun _ => ?_ | refine .ite ?_ ?_ | split
  all_goals simp

@[simp] theorem keepsFacts_insdat (blk : Int) (data : List Byte) (prevseg : Int) :
    KeepsFacts (insdat blk data prevseg) := by
  refine .bind (keepsFacts_bgtinf _ _) fun _ => .read (.pure _) fun b => .wr_bind Int.one_pos ?_
  with_reducible repeat' first | refine .bind ?_ fun _ => ?_ | refine .ite ?_ ?_ | split
  all_goals simp

@[simp] theorem keepsFacts_binsdtLoop (type : Int) (data : List Byte) (minsegsize : Int)
    (n : Nat) (dblk segptr remsize segaddr : Int) :
    KeepsFacts (binsdtLoop type data minsegsize n dblk segptr remsize segaddr) := by
  induction n generalizing dblk segptr remsize segaddr with
  | zero => exact .hang
  | succ n ih =>
      unfold binsdtLoop
      with_reducible repeat' first | refine .bind ?_ fun _ => ?_ | refine .ite ?_ ?_ | split
      all_goals simp [ih]

@[simp] theorem keepsFacts_binsdt (type : Int) (data : List Byte) :
    KeepsFacts (binsdt type data) := by
  unfold binsdt
  with_reducible repeat' first | refine .bind ?_ fun _ => ?_ | refine .ite ?_ ?_ | split
  all_goals simp

@[simp] theorem keepsFacts_deldat (blk offset : Int) : KeepsFacts (deldat blk offset) := by
  unfold deldat
  with_reducible repeat' first | refine .bind ?_ fun _ => ?_ | refine .ite ?_ ?_ | split
  all_goals simp

@[simp] theorem keepsFacts_bdeldtLoop (n : Nat) (draddr status : Int) :
    KeepsFacts (bdeldtLoop n draddr status) := by
  induction n generalizing draddr status with
  | zero => exact .hang
  | succ n ih =>
      unfold bdeldtLoop
      with_reducible repeat' first | refine .bind ?_ fun _ => ?_ | refine .ite ?_ ?_ | split
      all_goals simp [ih]

@[simp] theorem keepsFacts_bdeldt (draddr : Int) : KeepsFacts (bdeldt draddr) :=
  keepsFacts_bdeldtLoop _ _ _

@[simp] theorem keepsFacts_bupddtLoop (n : Nat) (draddr : Int) (data : List Byte) (remsz dblk offset type : Int) :
    KeepsFacts (bupddtLoop n draddr data remsz dblk offset type) := by
  induction n generalizing draddr data remsz dblk offset type with
  | zero => exact .hang
  | succ n ih =>
      refine .ite (.bind (keepsFacts_bgtinf _ _) fun type => .ite ?_ ?_) (.pure _)
      · exact .bind (keepsFacts_bterr _ _ _) fun _ => .pure _
      · refine .bind (keepsFacts_getseginfo _) fun seg => .read (.pure _) fun b => .ite ?_ ?_
        · exact .wr_bind Int.one_pos (.bind (keepsFacts_bgtinf _ _) fun _ => .bind (keepsFacts_bstinf _ _ _) fun _ => ih _ _ _ _ _ _)
        · exact .wr_bind Int.one_pos (ih _ _ _ _ _ _)

@[simp] theorem keepsFacts_bupddt (draddr : Int) (data : List Byte) : KeepsFacts (bupddt draddr data) := by
  refine .bind (keepsFacts_bupddtLoop _ _ _ _ _ _ _) fun r => ?_
  split
  · exact keepsFacts_btgerr
  · refine .ite (.bind (keepsFacts_bdeldt _) fun _ => keepsFacts_btgerr) (.ite ?_ keepsFacts_btgerr)
    refine .bind (keepsFacts_binsdt _ _) fun draddr => .read keepsFacts_btgerr fun b => ?_
    exact .wr_bind Int.one_pos keepsFacts_btgerr

@[simp] theorem keepsFacts_bseldtLoop (n : Nat) (draddr sprem : Int) (buf : List Byte) :
    KeepsFacts (bseldtLoop n draddr sprem buf) := by
  induction n generalizing draddr sprem buf with
  | zero => exact .hang
  | succ n ih =>
      unfold bseldtLoop
      with_reducible repeat' first | refine .bind ?_ fun _ => ?_ | refine .ite ?_ ?_ | split
      all_goals simp [ih]

@[simp] theorem keepsFacts_bseldt (draddr dsize : Int) : KeepsFacts (bseldt draddr dsize) :=
  keepsFacts_bseldtLoop _ _ _ _

@[simp] theorem keepsFacts_brecszLoop (n : Nat) (draddr recsz : Int) :
    KeepsFacts (brecszLoop n draddr recsz) := by
  induction n generalizing draddr recsz with
  | zero => exact .hang
  | succ n ih =>
      unfold brecszLoop
      with_reducible repeat' first | refine .bind ?_ fun _ => ?_ | refine .ite ?_ ?_ | split
      all_goals simp [ih]

@[simp] theorem keepsFacts_brecsz (draddr : Int) : KeepsFacts (brecsz draddr) :=
  keepsFacts_brecszLoop _ _ _

omit [Build] in
@[simp] theorem keepsFacts_dataok : KeepsFacts dataok := .bind .get fun _ => .pure _

end Data

section Dups

omit [Build] in
@[simp] theorem keepsFacts_getkeyent (blk pos : Int) : KeepsFacts (getkeyent blk pos) := by
  unfold getkeyent
  with_reducible repeat' first | refine .bind ?_ fun _ => ?_ | refine .ite ?_ ?_ | split
  all_goals simp

omit [Build] in
@[simp] theorem keepsFacts_putkeyent (blk pos : Int) (ke : KeyEnt) : KeepsFacts (putkeyent blk pos ke) := by
  refine .read (.bind (keepsFacts_bterr _ _ _) fun _ => .pure _) fun b => ?_
  exact .wr_bind Int.one_pos (.pure _)

@[simp] theorem keepsFacts_getdkey (draddr : Int) : KeepsFacts (getdkey draddr) := by
  unfold getdkey
  with_reducible repeat' first | refine .bind ?_ fun _ => ?_ | refine .ite ?_ ?_ | split
  all_goals simp

@[simp] theorem keepsFacts_putdkey (draddr : Int) (dkey : DKey) :
    KeepsFacts (putdkey draddr dkey) := by
  unfold putdkey
  with_reducible repeat' first | refine .bind ?_ fun _ => ?_ | refine .ite ?_ ?_ | split
  all_goals simp

@[simp] theorem keepsFacts_btdupkeyAdd (key : Key) (val cblk n : Int) (ke : KeyEnt) :
    KeepsFacts (btdupkeyAdd key val cblk n ke) := by
  unfold btdupkeyAdd
  with_reducible repeat' first | refine .bind ?_ fun _ => ?_ | refine .ite ?_ ?_ | split
  all_goals simp

@[simp] theorem keepsFacts_btdupkey (key : Key) (val : Int) :
    KeepsFacts (btdupkey key val) := by
  unfold btdupkey
  with_reducible repeat' first | refine .bind ?_ fun _ => ?_ | refine .ite ?_ ?_ | split
  all_goals simp

omit [Build] in
@[simp] theorem keepsFacts_btdupposFound (newaddr : Int) (dkey : DKey) :
    KeepsFacts (btdupposFound newaddr dkey) := by
  unfold btdupposFound
  with_reducible repeat' first | refine .bind ?_ fun _ => ?_ | refine .ite ?_ ?_ | split
  all_goals simp

@[simp] theorem keepsFacts_btdupposLoop (direction val : Int) (n : Nat) (dkey : DKey) :
    KeepsFacts (btdupposLoop direction val n dkey) := by
  induction n generalizing dkey with
  | zero => exact .hang
  | succ n ih =>
      unfold btdupposLoop
      with_reducible repeat' first | refine .bind ?_ fun _ => ?_ | refine .ite ?_ ?_ | split
      all_goals simp [ih]

@[simp] theorem keepsFacts_btduppos (direction val : Int) :
    KeepsFacts (btduppos direction val) := by
  unfold btduppos
  with_reducible repeat' first | refine .bind ?_ fun _ => ?_ | refine .ite ?_ ?_ | split
  all_goals simp

@[simp] theorem keepsFacts_deldkey (draddr : Int) (dkey : DKey) :
    KeepsFacts (deldkey draddr dkey) := by
  unfold deldkey
  with_reducible repeat' first | refine .bind ?_ fun _ => ?_ | refine .ite ?_ ?_ | split
  all_goals simp

@[simp] theorem keepsFacts_relink (draddr : Int) (f : DKey → DKey) :
    KeepsFacts (relink draddr f) := by
  unfold relink
  with_reducible repeat' first | refine .bind ?_ fun _ => ?_ | refine .ite ?_ ?_ | split
  all_goals simp

@[simp] theorem keepsFacts_btdeldup : KeepsFacts btdeldup := by
  unfold btdeldup
  with_reducible repeat' first | refine .bind ?_ fun _ => ?_ | refine .ite ?_ ?_ | split
  all_goals simp

@[simp] theorem keepsFacts_btdupupd (val : Int) : KeepsFacts (btdupupd val) := by
  unfold btdupupd
  with_reducible repeat' first | refine .bind ?_ fun _ => ?_ | refine .ite ?_ ?_ | split
  all_goals simp

end Dups

end Btlib
