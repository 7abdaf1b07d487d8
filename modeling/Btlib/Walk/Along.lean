import Btlib.Dups.Queues
import Btlib.Source.Walk

namespace Btlib

open Links

variable [Build] {s s' : St} {D : List Int} {live : Finset (Int × Nat)} {ent : Int × Nat → DKey}
  {b i dir val v w nx pv nx' pv' : Int} {p q : Int × Nat} {k : Key} {ke : KeyEnt}

-- The duplicates at `live` can be read.
structure Legible (s : St) (D : List Int) (live : Finset (Int × Nat)) (ent : Int × Nat → DKey) : Prop where
  has : ∀ b ∈ D, 0 < b ∧ s.disk.Has b
  type : ∀ b ∈ D, (s.disk.block b).btype = ZDUP
  seg : ∀ p ∈ live, p.1 ∈ D ∧ ((p.2 * entSz : Nat) : Int) < ZBLKSZ ∧
    (s.disk.block p.1).Ent ((p.2 * entSz : Nat) : Int) (ent p) ∧ (ent p).Fits

-- The last found position is the place of the entry `ke`.
structure Onto (s : St) (b i : Int) (ke : KeyEnt) : Prop where
  has : s.disk.Has b
  ent : (s.disk.block b).keyblk i = ke
  blk : s.ctx.lf.lfblk = b
  pos : s.ctx.lf.lfpos = i

theorem Dups.legible {fs os : List Int} {n : Int → Nat} (h : Dups s fs D os n live ent) : Legible s D live ent :=
  ⟨fun _ hb => ⟨h.pos hb,h.has hb⟩,fun b hb => (h.block b hb).type,fun p hp =>
    ⟨(h.seg p hp).1,h.off_lt_block hp,(h.seg p hp).2.2⟩⟩

omit [Build] in
theorem Onto.exec_getkeyent (h : Onto s b i ke) : exec (getkeyent b i) s = .done (some ke, s) := by
  simp only [getkeyent, exec_bind, exec_brdblk, Disk.read_eq h.has, Prog.Outcome.bind_done, exec_pure, h.ent]

namespace Legible

theorem congr (h : Legible s D live ent) (hhas : ∀ b, s.disk.Has b → s'.disk.Has b)
    (hD : ∀ b ∈ D, s'.disk.block b = s.disk.block b) : Legible s' D live ent := by
  refine ⟨fun b hb => ⟨(h.has b hb).1,hhas b (h.has b hb).2⟩,fun b hb => ?_,fun p hp => ?_⟩
  · rw [hD b hb]
    exact h.type b hb
  · have hp' := h.seg p hp
    rw [hD p.1 hp'.1]
    exact hp'

theorem getdkey (hb : Sized) (h : Legible s D live ent) (hp : p ∈ live) :
    exec (Btlib.getdkey (addr p)) s = .done (some (ent p), s) := by
  obtain ⟨hD,hlt,he,hf⟩ := h.seg p hp
  obtain ⟨hpos,hhas⟩ := h.has p.1 hD
  exact exec_getdkey hb hhas hpos (by omega) hlt (h.type p.1 hD) he hf

theorem addr_ne_null (h : Legible s D live ent) (hp : p ∈ live) : addr p ≠ ZNULL := by
  have hpos := (h.has p.1 (h.seg p hp).1).1
  have hblk := Int.mul_pos hpos (Int.natCast_pos.2 ZBLKSZ_pos)
  change addr p ≠ -1
  rw [addr]
  omega

-- `btduppos` has nothing to say of a position without duplicates.
theorem exec_btduppos_gap (hd : s.ctx.lf.draddr = ZNULL) (hx : s.ctx.lf.lfexct = false) :
    exec (btduppos dir val) s = .done ((ZNULL, val), s) := by
  simp only [btduppos, exec_bind, exec_get, Prog.Outcome.bind_done, exec_ite, hd, hx, Bool.false_eq_true,
    not_false_eq_true, and_self, if_true, exec_pure]

theorem exec_btduppos_plain (hf : Onto s b i ke)
    (hd : s.ctx.lf.draddr = ZNULL) (hx : s.ctx.lf.lfexct = true) (hdup : ke.dup = ZNULL) :
    exec (btduppos dir val) s = .done ((ZNULL, val), s) := by
  have hget := hf.exec_getkeyent
  simp only [btduppos, exec_bind, exec_get, Prog.Outcome.bind_done, exec_ite, hd, hx, not_true_eq_false,
    and_false, if_false, if_true, hf.blk, hf.pos, hget, hdup, exec_pure]

-- It enters a chain at the end that `dir` comes from.
theorem exec_btduppos_enter (hb : Sized) (h : Legible s D live ent) (hf : Onto s b i ke)
    (hd : s.ctx.lf.draddr = ZNULL) (hx : s.ctx.lf.lfexct = true) (hdup : ke.dup ≠ ZNULL)
    (ha : (if dir = ZNEXT then ke.val else ke.dup) = addr p) (hp : Cell live ent k p v nx pv) :
    exec (btduppos dir val) s = .done ((0, v), { s with ctx.lf := { s.ctx.lf with draddr := addr p } }) := by
  have hget := hf.exec_getkeyent
  have hkey := h.getdkey hb hp.1
  simp only [btduppos, exec_bind, exec_get, Prog.Outcome.bind_done, exec_ite, hd, hx, not_true_eq_false,
    and_false, if_false, if_true, hf.blk, hf.pos, hget, hdup, ha, hkey, btdupposFound, exec_setLf, exec_pure, hp.2]

theorem exec_btduppos_step (hb : Sized) (h : Legible s D live ent) (hx : s.ctx.lf.lfexct = true)
    (hd : s.ctx.lf.draddr = addr p) (hp : Cell live ent k p v nx pv)
    (ha : (if dir = ZNEXT then nx else pv) = addr q) (hq : Cell live ent k q w nx' pv') :
    exec (btduppos dir val) s = .done ((0, w), { s with ctx.lf := { s.ctx.lf with draddr := addr q } }) := by
  obtain ⟨N,hN⟩ : ∃ N, FUEL = N + 1 := ⟨FUEL - 1,by have := hb.fuel; omega⟩
  have hkey := h.getdkey hb hp.1
  have hkey' := h.getdkey hb hq.1
  have hnull := h.addr_ne_null hp.1
  have hnull' := h.addr_ne_null hq.1
  simp only [btduppos, exec_bind, exec_get, Prog.Outcome.bind_done, exec_ite, hd, hnull, false_and, if_false, hkey,
    hN, btdupposLoop, hp.2, ha, hnull', hkey', hq.2, Bool.false_eq_true, btdupposFound, exec_setLf, exec_pure, hx]

theorem exec_btduppos_end (hb : Sized) (h : Legible s D live ent) (hx : s.ctx.lf.lfexct = true)
    (hd : s.ctx.lf.draddr = addr p) (hp : Cell live ent k p v nx pv)
    (ha : (if dir = ZNEXT then nx else pv) = ZNULL) :
    exec (btduppos dir val) s = .done ((ZNULL, val), { s with ctx.lf := { s.ctx.lf with draddr := ZNULL } }) := by
  obtain ⟨N,hN⟩ : ∃ N, FUEL = N + 1 := ⟨FUEL - 1,by have := hb.fuel; omega⟩
  have hkey := h.getdkey hb hp.1
  have hnull := h.addr_ne_null hp.1
  simp only [btduppos, exec_bind, exec_get, Prog.Outcome.bind_done, exec_ite, hd, hnull, false_and, if_false, hkey,
    hN, btdupposLoop, hp.2, ha, if_true, exec_setLf, exec_pure, hx]

end Legible

end Btlib
