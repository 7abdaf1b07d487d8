import Btlib.Index.Descend

namespace Btlib

open Multiway

variable [Build] {n m : Nat} {s s' : St} {fs os : List Int}

-- The last found position is the link that the frame leaves open; an empty leaf has none.
structure AtLink (s : St) (f : KeyFrame n) (p : KeyPath (n + 1) m) : Prop where
  blk : s.ctx.lf.lfblk = f.id
  pos : f.size ≠ 0 → s.ctx.lf.lfpos = f.le.length
  stack : s.ctx.stk = down p

omit [Build] in
theorem exec_pull_root (h : s.ctx.stk = down (.root : KeyPath n n)) : exec pullParent s =
    .done ((), { s with ctx.lf := { s.ctx.lf with lfpos := ZNULL, lfblk := ZNULL }, ctx.stk := [] }) :=
  exec_pullParent h

omit [Build] in
theorem exec_pull_step {g : KeyFrame n} {q : KeyPath (n + 1) m} (h : s.ctx.stk = down (.step g q)) :
    exec pullParent s =
      .done ((), { s with ctx.lf := { s.ctx.lf with lfpos := framePos g, lfblk := g.id }, ctx.stk := down q }) :=
  exec_pullParent h

-- The walk has left the tree.
structure Outside (s s' : St) : Prop where
  disk : s'.disk = s.disk
  ctx : s'.ctx = { s.ctx with lf := s'.ctx.lf, stk := s'.ctx.stk }
  blk : s'.ctx.lf.lfblk = ZNULL
  exct : s'.ctx.lf.lfexct = false
  draddr : s'.ctx.lf.draddr = ZNULL

-- The entry behind a gap, in the block of the frame `g`: `c` is what lies below the link before it.
structure Behind (f : KeyFrame n) (c : KeyTree n) (p : KeyPath (n + 1) m) {k : Nat} (g : KeyFrame k)
    (d : KeyTree k) (q : KeyPath (k + 1) m) (e : KeyEnt) (r : List KeyEnt) : Prop where
  plug : q.plug (g.fill d) = p.plug (f.fill c)
  left : (Path.step g q).left ++ d.inorder = (Path.step f p).left ++ c.inorder
  right : (Path.step g q).right = (Path.step f p).right
  ents : g.re = e :: r

-- The state in which `takeKey` finds the entry at the link a frame leaves open.
def St.onto (s : St) (g : KeyFrame n) (q : KeyPath (n + 1) m) : St :=
  { s with ctx.stk := down q, ctx.lf := { s.ctx.lf with lfblk := g.id, lfpos := g.le.length, lfexct := true } }

-- One turn of `bnxtky` at a gap with an entry behind it.
theorem exec_bnxtkyLoop_take {N : Nat} {f : KeyFrame n} {c : KeyTree n} {p : KeyPath (n + 1) m} {e : KeyEnt}
    {r : List KeyEnt} (h : Index s (p.plug (f.fill c)) fs os) (hb : AtLink s f p) (hx : s.ctx.lf.lfexct = false)
    (hre : f.re = e :: r) : exec (bnxtkyLoop (N + 1)) s =
      (exec (takeKey (s.disk.block f.id) ZNEXT) (s.onto f p)).bind fun r => .done (some r.1, r.2) := by
  have hhas : s.disk.Has f.id := h.has (Index.mem_plug.2 (Or.inl List.mem_cons_self))
  have hnull : f.id ≠ ZNULL := hhas.ne_null
  obtain ⟨hp,-⟩ := (holds_plug_iff (Path.step f p) c).1 h.holds
  have hsize : f.size = f.le.length + r.length + 1 := by
    rw [Frame.size, hre, List.length_cons, Nat.add_assoc]
  have hpos := hb.pos (by omega)
  have hnk : (s.disk.block f.id).nkeys = f.size := hp.1.nkeys
  have hmore : ¬ ((f.size : Int) ≤ f.le.length ∨ (f.size : Int) = 0) := by omega
  have hlt : (f.le.length : Int) < f.size := by omega
  have honto : s.onto f p =
      { s with ctx.lf := { s.ctx.lf with lfblk := f.id, lfpos := f.le.length, lfexct := true } } := by
    rw [St.onto, ← hb.stack]
  simp only [bnxtkyLoop, exec_bind, exec_get, Prog.Outcome.bind_done, hb.blk, exec_ite, if_neg hnull, exec_brdblk,
    Disk.read_eq hhas, exec_bgtinf hhas, Block.getInf_ZNKEYS, hnk, hpos, if_neg hmore, bnxtkyStep, hx,
    Bool.false_eq_true, not_false_eq_true, if_true, exec_setLf, exec_pure, if_pos hlt]
  rw [honto]

theorem exec_bnxtkyLoop_out {N : Nat} (h : s.ctx.lf.lfblk = ZNULL) :
    exec (bnxtkyLoop (N + 1)) s = .done (none, s) := by
  simp only [bnxtkyLoop, exec_bind, exec_get, Prog.Outcome.bind_done, exec_ite, h, if_true, exec_pure]

theorem exec_bnxtkyLoop_pull {N : Nat} {f : KeyFrame n} {c : KeyTree n} {p : KeyPath (n + 1) m}
    (h : Index s (p.plug (f.fill c)) fs os) (hb : AtLink s f p) (hre : f.re = []) :
    exec (bnxtkyLoop (N + 1)) s = (exec pullParent s).bind fun r =>
      exec (bnxtkyLoop N) { r.2 with ctx.lf := { r.2.ctx.lf with lfexct := false } } := by
  have hhas : s.disk.Has f.id := h.has (Index.mem_plug.2 (Or.inl List.mem_cons_self))
  have hnull : f.id ≠ ZNULL := hhas.ne_null
  obtain ⟨hp,-⟩ := (holds_plug_iff (Path.step f p) c).1 h.holds
  have hsize : f.size = f.le.length := by rw [Frame.size, hre, List.length_nil, Nat.add_zero]
  have hnk : (s.disk.block f.id).nkeys = f.size := hp.1.nkeys
  have hlast : (f.size : Int) ≤ s.ctx.lf.lfpos ∨ (f.size : Int) = 0 := by
    by_cases h0 : f.size = 0
    · right
      rw [h0]
      rfl
    · left
      rw [hb.pos h0, hsize]
  simp only [bnxtkyLoop, exec_bind, exec_get, Prog.Outcome.bind_done, hb.blk, exec_ite, if_neg hnull, exec_brdblk,
    Disk.read_eq hhas, exec_bgtinf hhas, Block.getInf_ZNKEYS, hnk, if_pos hlast, exec_setLf]

-- `bnxtky` goes up until an entry follows; the induction is on the way up.
theorem exec_bnxtkyLoop_up (d N : Nat) {f : KeyFrame n} {c : KeyTree n} {p : KeyPath (n + 1) m}
    (h : Index s (p.plug (f.fill c)) fs os) (hb : AtLink s f p) (hx : s.ctx.lf.lfexct = false ∨ f.re = [])
    (ha : s.ctx.lf.draddr = ZNULL) (hd : p.depth = d) (hN : d + 2 ≤ N) :
    ((Path.step f p).right = [] ∧ ∃ s', exec (bnxtkyLoop N) s = .done (none, s') ∧ Outside s s') ∨
      ∃ (k : Nat) (g : KeyFrame k) (c' : KeyTree k) (q : KeyPath (k + 1) m) (e : KeyEnt) (r : List KeyEnt),
        Behind f c p g c' q e r ∧ exec (bnxtkyLoop N) s =
          (exec (takeKey (s.disk.block g.id) ZNEXT) (s.onto g q)).bind fun r => .done (some r.1, r.2) := by
  induction d generalizing n s N with
  | zero =>
      obtain ⟨N,rfl⟩ : ∃ k, N = k + 2 := ⟨N - 2,by omega⟩
      cases hre : f.re with
      | cons e r =>
          have hx : s.ctx.lf.lfexct = false := hx.resolve_right (by rw [hre]; exact List.cons_ne_nil _ _)
          exact Or.inr ⟨n,f,c,p,e,r,⟨rfl,rfl,rfl,hre⟩,exec_bnxtkyLoop_take h hb hx hre⟩
      | nil =>
          cases p with
          | step g q => simp [Path.depth] at hd
          | root =>
              have hloop := exec_bnxtkyLoop_pull (N := N + 1) h hb hre
              rw [exec_pull_root hb.stack, Prog.Outcome.bind_done] at hloop
              refine Or.inl ⟨?_,_,hloop.trans (exec_bnxtkyLoop_out rfl),rfl,rfl,rfl,rfl,ha⟩
              rw [Path.right_step, Frame.right_of_re hre, Path.right_root, List.append_nil]
  | succ d ih =>
      obtain ⟨N,rfl⟩ : ∃ k, N = k + 1 := ⟨N - 1,by omega⟩
      cases hre : f.re with
      | cons e r =>
          have hx : s.ctx.lf.lfexct = false := hx.resolve_right (by rw [hre]; exact List.cons_ne_nil _ _)
          exact Or.inr ⟨n,f,c,p,e,r,⟨rfl,rfl,rfl,hre⟩,exec_bnxtkyLoop_take h hb hx hre⟩
      | nil =>
          cases p with
          | root => simp [Path.depth] at hd
          | step g q =>
              have hright : f.right = [] := Frame.right_of_re hre
              have hloop := exec_bnxtkyLoop_pull (N := N) h hb hre
              rw [exec_pull_step hb.stack, Prog.Outcome.bind_done] at hloop
              have hb1 : AtLink { s with
                  ctx.lf := { s.ctx.lf with lfpos := framePos g, lfblk := g.id, lfexct := false }
                  ctx.stk := down q } g q := ⟨rfl,fun hg => if_neg hg,rfl⟩
              have hix : Index { s with
                  ctx.lf := { s.ctx.lf with lfpos := framePos g, lfblk := g.id, lfexct := false }
                  ctx.stk := down q } (q.plug (g.fill (f.fill c))) fs os := h.withCtx rfl
              rcases ih N hix hb1 (Or.inl rfl) ha (by simpa [Path.depth] using hd) (by omega)
                with ⟨hnil,s1,hex,ho⟩ | ⟨k,g1,c1,q1,e,r,hbeh,hex⟩
              · refine Or.inl ⟨?_,s1,hloop.trans hex,ho.disk,ho.ctx,ho.blk,ho.exct,ho.draddr⟩
                rw [Path.right_step, hright, hnil, List.append_nil]
              · refine Or.inr ⟨k,g1,c1,q1,e,r,⟨hbeh.plug,?_,?_,hbeh.ents⟩,hloop.trans hex⟩
                · rw [hbeh.left, Frame.inorder_fill, hright, List.append_nil, Path.left_step f,
                    List.append_assoc]
                · rw [hbeh.right, Path.right_step f, hright, List.nil_append]

end Btlib
