import Btlib.Cache.MarksKept

namespace Btlib

variable [Build] {strict : Prop} {k : Nat}

section Data

@[simp] theorem marksKept_getseginfo (hk : 0 < k) (draddr : Int) : MarksKept strict k (getseginfo draddr) := by
  unfold getseginfo
  with_reducible repeat' first | refine .bind ?_ fun _ => ?_ | refine .ite ?_ ?_ | split
  all_goals simp [hk]

@[simp] theorem marksKept_mkdblk (hk : 0 < k) (type : Int) : MarksKept strict k (mkdblk type) := by
  unfold mkdblk
  with_reducible repeat' first | refine .bind ?_ fun _ => ?_ | refine .ite ?_ ?_ | split
  all_goals simp [hk]

@[simp] theorem marksKept_insdat (hk : 0 < k) (blk : Int) (data : List Byte) (prevseg : Int) :
    MarksKept strict k (insdat blk data prevseg) := by
  unfold insdat
  with_reducible repeat' first | refine .bind ?_ fun _ => ?_ | refine .ite ?_ ?_ | split
  all_goals simp [hk]

@[simp] theorem marksKept_binsdtLoop (hk : 0 < k) (type : Int) (data : List Byte) (minsegsize : Int)
    (n : Nat) (dblk segptr remsize segaddr : Int) :
    MarksKept strict k (binsdtLoop type data minsegsize n dblk segptr remsize segaddr) := by
  induction n generalizing dblk segptr remsize segaddr with
  | zero => exact .hang
  | succ n ih =>
      unfold binsdtLoop
      with_reducible repeat' first | refine .bind ?_ fun _ => ?_ | refine .ite ?_ ?_ | split
      all_goals simp [hk, ih]

@[simp] theorem marksKept_binsdt (hk : 0 < k) (type : Int) (data : List Byte) :
    MarksKept strict k (binsdt type data) := by
  unfold binsdt
  with_reducible repeat' first | refine .bind ?_ fun _ => ?_ | refine .ite ?_ ?_ | split
  all_goals simp [hk]

@[simp] theorem marksKept_deldat (hk : 0 < k) (blk offset : Int) : MarksKept strict k (deldat blk offset) := by
  unfold deldat
  with_reducible repeat' first | refine .bind ?_ fun _ => ?_ | refine .ite ?_ ?_ | split
  all_goals simp [hk]

@[simp] theorem marksKept_bdeldtLoop (hk : 0 < k) (n : Nat) (draddr status : Int) :
    MarksKept strict k (bdeldtLoop n draddr status) := by
  induction n generalizing draddr status with
  | zero => exact .hang
  | succ n ih =>
      unfold bdeldtLoop
      with_reducible repeat' first | refine .bind ?_ fun _ => ?_ | refine .ite ?_ ?_ | split
      all_goals simp [hk, ih]

@[simp] theorem marksKept_bdeldt (hk : 0 < k) (draddr : Int) : MarksKept strict k (bdeldt draddr) :=
  marksKept_bdeldtLoop hk _ _ _

@[simp] theorem marksKept_bupddtLoop (hk : 0 < k) (n : Nat) (draddr : Int) (data : List Byte)
    (remsz dblk offset type : Int) :
    MarksKept strict k (bupddtLoop n draddr data remsz dblk offset type) := by
  induction n generalizing draddr data remsz dblk offset type with
  | zero => exact .hang
  | succ n ih =>
      unfold bupddtLoop
      with_reducible repeat' first | refine .bind ?_ fun _ => ?_ | refine .ite ?_ ?_ | split
      all_goals simp [hk, ih]

@[simp] theorem marksKept_bupddt (hk : 0 < k) (draddr : Int) (data : List Byte) :
    MarksKept strict k (bupddt draddr data) := by
  unfold bupddt
  with_reducible repeat' first | refine .bind ?_ fun _ => ?_ | refine .ite ?_ ?_ | split
  all_goals simp [hk]

@[simp] theorem marksKept_bseldtLoop (hk : 0 < k) (n : Nat) (draddr sprem : Int) (buf : List Byte) :
    MarksKept strict k (bseldtLoop n draddr sprem buf) := by
  induction n generalizing draddr sprem buf with
  | zero => exact .hang
  | succ n ih =>
      unfold bseldtLoop
      with_reducible repeat' first | refine .bind ?_ fun _ => ?_ | refine .ite ?_ ?_ | split
      all_goals simp [hk, ih]

@[simp] theorem marksKept_bseldt (hk : 0 < k) (draddr dsize : Int) : MarksKept strict k (bseldt draddr dsize) :=
  marksKept_bseldtLoop hk _ _ _ _

@[simp] theorem marksKept_brecszLoop (hk : 0 < k) (n : Nat) (draddr recsz : Int) :
    MarksKept strict k (brecszLoop n draddr recsz) := by
  induction n generalizing draddr recsz with
  | zero => exact .hang
  | succ n ih =>
      unfold brecszLoop
      with_reducible repeat' first | refine .bind ?_ fun _ => ?_ | refine .ite ?_ ?_ | split
      all_goals simp [hk, ih]

@[simp] theorem marksKept_brecsz (hk : 0 < k) (draddr : Int) : MarksKept strict k (brecsz draddr) :=
  marksKept_brecszLoop hk _ _ _

@[simp] theorem marksKept_dataok : MarksKept strict k dataok := .bind .get fun _ => .pure _

end Data

section Dups

@[simp] theorem marksKept_getkeyent (hk : 0 < k) (blk pos : Int) : MarksKept strict k (getkeyent blk pos) := by
  unfold getkeyent
  with_reducible repeat' first | refine .bind ?_ fun _ => ?_ | refine .ite ?_ ?_ | split
  all_goals simp [hk]

@[simp] theorem marksKept_putkeyent (hk : 0 < k) (blk pos : Int) (ke : KeyEnt) :
    MarksKept strict k (putkeyent blk pos ke) := by
  unfold putkeyent
  with_reducible repeat' first | refine .bind ?_ fun _ => ?_ | refine .ite ?_ ?_ | split
  all_goals simp [hk]

@[simp] theorem marksKept_getdkey (hk : 0 < k) (draddr : Int) : MarksKept strict k (getdkey draddr) := by
  unfold getdkey
  with_reducible repeat' first | refine .bind ?_ fun _ => ?_ | refine .ite ?_ ?_ | split
  all_goals simp [hk]

@[simp] theorem marksKept_putdkey (hk : 0 < k) (draddr : Int) (dkey : DKey) :
    MarksKept strict k (putdkey draddr dkey) := by
  unfold putdkey
  with_reducible repeat' first | refine .bind ?_ fun _ => ?_ | refine .ite ?_ ?_ | split
  all_goals simp [hk]

@[simp] theorem marksKept_btdupkeyAdd (hk : 0 < k) (key : Key) (val cblk n : Int) (ke : KeyEnt) :
    MarksKept strict k (btdupkeyAdd key val cblk n ke) := by
  unfold btdupkeyAdd
  with_reducible repeat' first | refine .bind ?_ fun _ => ?_ | refine .ite ?_ ?_ | split
  all_goals simp [hk]

@[simp] theorem marksKept_btdupkey (hk : 0 < k) (key : Key) (val : Int) :
    MarksKept strict k (btdupkey key val) := by
  unfold btdupkey
  with_reducible repeat' first | refine .bind ?_ fun _ => ?_ | refine .ite ?_ ?_ | split
  all_goals simp [hk]

@[simp] theorem marksKept_btdupposFound (newaddr : Int) (dkey : DKey) :
    MarksKept strict k (btdupposFound newaddr dkey) := by
  unfold btdupposFound
  with_reducible repeat' first | refine .bind ?_ fun _ => ?_ | refine .ite ?_ ?_ | split
  all_goals simp

@[simp] theorem marksKept_btdupposLoop (hk : 0 < k) (direction val : Int) (n : Nat) (dkey : DKey) :
    MarksKept strict k (btdupposLoop direction val n dkey) := by
  induction n generalizing dkey with
  | zero => exact .hang
  | succ n ih =>
      unfold btdupposLoop
      with_reducible repeat' first | refine .bind ?_ fun _ => ?_ | refine .ite ?_ ?_ | split
      all_goals simp [hk, ih]

@[simp] theorem marksKept_btduppos (hk : 0 < k) (direction val : Int) :
    MarksKept strict k (btduppos direction val) := by
  unfold btduppos
  with_reducible repeat' first | refine .bind ?_ fun _ => ?_ | refine .ite ?_ ?_ | split
  all_goals simp [hk]

@[simp] theorem marksKept_deldkey (hk : 0 < k) (draddr : Int) (dkey : DKey) :
    MarksKept strict k (deldkey draddr dkey) := by
  unfold deldkey
  with_reducible repeat' first | refine .bind ?_ fun _ => ?_ | refine .ite ?_ ?_ | split
  all_goals simp [hk]

@[simp] theorem marksKept_relink (hk : 0 < k) (draddr : Int) (f : DKey → DKey) :
    MarksKept strict k (relink draddr f) := by
  unfold relink
  with_reducible repeat' first | refine .bind ?_ fun _ => ?_ | refine .ite ?_ ?_ | split
  all_goals simp [hk]

@[simp] theorem marksKept_btdeldup (hk : 0 < k) : MarksKept strict k btdeldup := by
  unfold btdeldup
  with_reducible repeat' first | refine .bind ?_ fun _ => ?_ | refine .ite ?_ ?_ | split
  all_goals simp [hk]

@[simp] theorem marksKept_btdupupd (hk : 0 < k) (val : Int) : MarksKept strict k (btdupupd val) := by
  unfold btdupupd
  with_reducible repeat' first | refine .bind ?_ fun _ => ?_ | refine .ite ?_ ?_ | split
  all_goals simp [hk]

end Dups

end Btlib
