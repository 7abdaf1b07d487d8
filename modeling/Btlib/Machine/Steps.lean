import Btlib.Machine.Plain
import Btlib.Source.Blocks

namespace Btlib

namespace Disk

def Has (d : Disk) (blk : Int) : Prop := 0 ≤ blk ∧ blk < d.size

theorem Has.ne_null {d : Disk} {blk : Int} (h : d.Has blk) : blk ≠ ZNULL := by
  rintro rfl
  exact absurd h.1 (by decide)

@[simp] theorem size_put (d : Disk) (blk : Int) (b : Block) : (d.put blk b).size = d.size := rfl

@[simp] theorem has_put (d : Disk) (blk blk' : Int) (b : Block) :
    (d.put blk b).Has blk' ↔ d.Has blk' := Iff.rfl

@[simp] theorem block_put (d : Disk) (blk : Int) (b : Block) :
    (d.put blk b).block = Function.update d.block blk b := rfl

theorem read_eq {d : Disk} (h : d.Has blk) : d.read blk = some (d.block blk) := if_pos h

theorem put_put (d : Disk) (blk : Int) (b b' : Block) :
    (d.put blk b).put blk b' = d.put blk b' := by
  simp only [put, Function.update_idem]

end Disk

variable [Build] {s : St} {blk : Int}

namespace Block

@[simp] theorem getInf_ZBTYPE (b : Block) : b.getInf .ZBTYPE = b.btype := rfl

@[simp] theorem getInf_ZMISC (b : Block) : b.getInf .ZMISC = b.misc := rfl

@[simp] theorem getInf_ZNXBLK (b : Block) : b.getInf .ZNXBLK = b.nxblk := rfl

@[simp] theorem getInf_ZNKEYS (b : Block) : b.getInf .ZNKEYS = b.nkeys := rfl

@[simp] theorem getInf_ZNBLKS (b : Block) : b.getInf .ZNBLKS = b.nblks := rfl

@[simp] theorem getInf_ZNXDUP (b : Block) : b.getInf .ZNXDUP = b.nxdup := rfl

@[simp] theorem setInf_ZNKEYS (b : Block) (v : Int) : b.setInf .ZNKEYS v = { b with nkeys := v } := rfl

-- The block `bsetbk` makes of `b`.
def setBk (b : Block) (type misc nxblk nkeys nblks dupblk : Int) : Block :=
  { b.setInf .ZBTYPE type with
    misc := misc, nxblk := nxblk, nkeys := nkeys, nblks := nblks, nxdup := dupblk }

end Block

section Exec

variable (h : s.disk.Has blk)
include h

@[simp] theorem exec_bgtinf (w : Inf) :
    exec (bgtinf blk w) s = .done ((s.disk.block blk).getInf w, s) := by
  simp [bgtinf, Disk.read_eq h]

@[simp] theorem exec_bstinf (w : Inf) (v : Int) :
    exec (bstinf blk w v) s =
      .done ((), { s with disk := s.disk.put blk ((s.disk.block blk).setInf w v) }) := by
  simp [bstinf, Disk.read_eq h]

@[simp] theorem exec_bsetbk (type misc nxblk nkeys nblks dupblk : Int) :
    exec (bsetbk blk type misc nxblk nkeys nblks dupblk) s =
      .done ((), { s with
        disk := s.disk.put blk ((s.disk.block blk).setBk type misc nxblk nkeys nblks dupblk) }) := by
  simp [bsetbk, Disk.read_eq h, exec_bstinf h, Disk.put_put, Block.setBk]

omit [Build] in
@[simp] theorem exec_bsetbs (on : Bool) : exec (bsetbs blk on) s = .done ((), s) := by
  simp only [bsetbs, exec_bind, exec_brdblk, Disk.read_eq h, Prog.Outcome.bind_done]
  rfl

@[simp] theorem exec_bputky (ke : KeyEnt) (c d : Int) (hn : (s.disk.block blk).nkeys ≠ ZMXKEY) :
    exec (bputky blk ke c d) s =
      .done ((), { s with disk := s.disk.put blk ((s.disk.block blk).putky ke c d) }) := by
  simp [bputky, Disk.read_eq h, hn]

omit [Build] in
@[simp] theorem exec_bremky (pos : Int) :
    exec (bremky blk pos) s =
      .done ((), { s with disk := s.disk.put blk ((s.disk.block blk).remky pos) }) := by
  simp [bremky, Disk.read_eq h]

@[simp] theorem exec_brepky (loc : Int) (ke : KeyEnt) (c d : Int) (h0 : 0 ≤ loc) (h1 : loc < ZMXKEY) :
    exec (brepky blk loc ke c d) s =
      .done ((), { s with disk := s.disk.put blk ((s.disk.block blk).repky loc ke c d) }) := by
  simp [brepky, Disk.read_eq h, h0, h1]

omit [Build] in
@[simp] theorem exec_bcpybk {fblk : Int} (hf : s.disk.Has fblk) (ts fs n : Int) :
    exec (bcpybk blk fblk ts fs n) s =
      .done ((), { s with
        disk := s.disk.put blk ((s.disk.block blk).cpybk (s.disk.block fblk) ts fs n.toNat) }) := by
  simp [bcpybk, Disk.read_eq h, Disk.read_eq hf, exec_bsetbs h]

omit [Build] in
@[simp] theorem exec_bsrhbk_loc (o : Srh) (h0 : 0 ≤ o.loc) (h1 : o.loc < (s.disk.block blk).nkeys) :
    exec (bsrhbk blk o) s =
      .done ({ key := keycpy ((s.disk.block blk).keyblk o.loc).key, loc := o.loc,
               val := ((s.disk.block blk).keyblk o.loc).val,
               link1 := (s.disk.block blk).lnkblk o.loc,
               link2 := (s.disk.block blk).lnkblk (o.loc + 1), result := 0 },
             { s with ctx.keyent := (s.disk.block blk).keyblk o.loc }) := by
  simp [bsrhbk, Disk.read_eq h, h0, not_le.2 h1, not_lt.2 h0]

end Exec

section Stack

omit [Build] in
theorem exec_bpush_refused {v : Int} (h : (STKMAX : Int) ≤ s.ctx.stk.length - 1) :
    exec (bpush v) s = .stuck (.report "BPUSH" QSTKOF) s.disk := by
  simp only [bpush, exec_bind, exec_get, Prog.Outcome.bind_done, exec_ite, if_pos h]
  exact exec_bterr_refused _ _ _ _ (Or.inr rfl)

omit [Build] in
theorem exec_bpush {v : Int} (h : ¬ (STKMAX : Int) ≤ s.ctx.stk.length - 1) :
    exec (bpush v) s = .done ((), { s with ctx.stk := v :: s.ctx.stk }) := by
  simp only [bpush, exec_bind, exec_get, Prog.Outcome.bind_done, exec_ite, if_neg h, exec_setStk]

omit [Build] in
theorem exec_bpull {v : Int} {stk : List Int} (h : s.ctx.stk = v :: stk) :
    exec bpull s = .done (v, { s with ctx.stk := stk }) := by
  simp [bpull, h]

end Stack

end Btlib
