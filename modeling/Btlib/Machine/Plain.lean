import Btlib.Context

namespace Btlib

-- A file without a cache before it. What a block at the end of the file holds at first is what
-- `block` says there.
structure Disk where
  block : Int → Block
  size : Int

-- Memory that holds nothing yet.
def Block.blank : Block where
  btype := 0
  btver := 0
  bthdr := 0
  misc := 0
  nxblk := 0
  nkeys := 0
  nblks := 0
  nxdup := 0
  keyblk := fun _ => ⟨[],0,0⟩
  lnkblk := fun _ => 0
  data := fun _ => 0

namespace Disk

def empty : Disk := ⟨fun _ => Block.blank,0⟩

def read (d : Disk) (blk : Int) : Option Block :=
  if 0 ≤ blk ∧ blk < d.size then some (d.block blk) else none

def put (d : Disk) (blk : Int) (b : Block) : Disk :=
  { d with block := Function.update d.block blk b }

def grow (d : Disk) (blk : Int) : Disk := { d with size := max d.size (blk + 1) }

end Disk

-- The machine refuses what the calls report when there is no block to be had, or no room on the path
-- stack.
def plain : Prog.Machine Op Res Disk
  | .rd blk, d => some ((d.read blk, false), d)
  | .wr blk b _, d => some ((), d.put blk b)
  | .grow blk, d => some (.ok, d.grow blk)
  | .label blk, d => some ((), d.grow blk)
  | .relabel blk, d => some ((), d.grow blk)
  | .creat, d => some (true, { d with size := 0 })
  | .wrblk _, d => some (true, d)
  | .wrall, d => some (true, d)
  | .lock, d => some (true, d)
  | .unlock, d => some (true, d)
  | .fopen, d => some (true, d)
  | .fclose, d => some (true, d)
  | .busy _ _, d => some ((), d)
  | .mark _, d => some ((), d)
  | .through _ _, d => some ((), d)
  | .initcntrl, d => some ((), d)
  | .report name _, d => if name = "BGTFRE" ∨ name = "BPUSH" then none else some ((), d)

structure St where
  ctx : Ctx
  disk : Disk

variable {α β : Type}

abbrev Outcome (α : Type) : Type := Prog.Outcome Op Disk α

-- A call on the plain machine.
def exec (x : BT α) (s : St) : Outcome (α × St) :=
  ((x s.ctx).run plain s.disk).map fun r => (r.1.1, ⟨r.1.2, r.2⟩)

section Exec

variable (s : St)

@[simp] theorem exec_pure (a : α) : exec (pure a) s = .done (a, s) := rfl

@[simp] theorem exec_bind (x : BT α) (f : α → BT β) :
    exec (x >>= f) s = (exec x s).bind fun r => exec (f r.1) r.2 := by
  change Prog.Outcome.map _ (((x s.ctx).bind fun r => f r.1 r.2).run plain s.disk) = _
  rw [Prog.run_bind]
  simp only [exec]
  cases (x s.ctx).run plain s.disk <;> rfl

@[simp] theorem exec_map (f : α → β) (x : BT α) :
    exec (f <$> x) s = (exec x s).map fun r => (f r.1, r.2) := by
  rw [map_eq_pure_bind, exec_bind]
  cases exec x s <;> rfl

@[simp] theorem exec_get : exec (get : BT Ctx) s = .done (s.ctx, s) := rfl

@[simp] theorem exec_modify (f : Ctx → Ctx) :
    exec (modify f : BT Unit) s = .done ((), { s with ctx := f s.ctx }) := rfl

@[simp] theorem exec_hang : exec (hang : BT α) s = .hung := rfl

@[simp] theorem exec_ite (p : Prop) [Decidable p] (x y : BT α) :
    exec (if p then x else y) s = if p then exec x s else exec y s := by
  split <;> rfl

@[simp] theorem exec_setLf (f : Lf → Lf) :
    exec (setLf f) s = .done ((), { s with ctx.lf := f s.ctx.lf }) := rfl

@[simp] theorem exec_setSuper (f : Super → Super) :
    exec (setSuper f) s = .done ((), { s with ctx.super := f s.ctx.super }) := rfl

@[simp] theorem exec_setStk (f : List Int → List Int) :
    exec (setStk f) s = .done ((), { s with ctx.stk := f s.ctx.stk }) := rfl

@[simp] theorem exec_bterr0 :
    exec bterr0 s = .done ((), { s with ctx.err := ⟨"", 0, .none⟩ }) := rfl

@[simp] theorem exec_bterr (name : String) (code : Int) (arg : Arg) (h : name ≠ "BGTFRE")
    (h' : name ≠ "BPUSH") :
    exec (bterr name code arg) s =
      .done ((), { s with ctx.err :=
        if s.ctx.err.qerror = 0 then ⟨name, code, arg⟩ else s.ctx.err }) := by
  change Prog.Outcome.map _
    (((ask (.report name code) s.ctx).bind fun r => (setErr _) r.2).run plain s.disk) = _
  simp [ask, Prog.call, Prog.bind, Prog.run, plain, h, h', setErr, modify, modifyGet,
    MonadStateOf.modifyGet, StateT.modifyGet, Prog.pure_eq]

theorem exec_bterr_refused (name : String) (code : Int) (arg : Arg)
    (h : name = "BGTFRE" ∨ name = "BPUSH") :
    exec (bterr name code arg) s = .stuck (.report name code) s.disk := by
  change Prog.Outcome.map _
    (((ask (.report name code) s.ctx).bind fun r => (setErr _) r.2).run plain s.disk) = _
  simp [ask, Prog.call, Prog.bind, Prog.run, plain, h, Prog.Outcome.map]

@[simp] theorem exec_btgerr : exec btgerr s = .done (s.ctx.err.qerror, s) := rfl

@[simp] theorem exec_brdblk (blk : Int) : exec (brdblk blk) s = .done (s.disk.read blk, s) := rfl

@[simp] theorem exec_wr (blk : Int) (b : Block) (n : Int) :
    exec (wr blk b n) s = .done ((), { s with disk := s.disk.put blk b }) := rfl

@[simp] theorem exec_mark (blk : Int) : exec (mark blk) s = .done ((), s) := rfl

@[simp] theorem exec_writeThrough (blk : Int) : exec (writeThrough blk) s = .done ((), s) := by
  unfold writeThrough
  simp only [exec_bind, exec_get, Prog.Outcome.bind_done, exec_ite]
  split <;> rfl

end Exec

end Btlib
