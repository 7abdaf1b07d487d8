import Btlib.Index.Climb

namespace Btlib

open Multiway

variable {n m : Nat} {s s' : St} {fs os : List Int} {e : KeyEnt} {l r : List KeyEnt}

theorem Frame.exists_next {f : KeyFrame n} (c : KeyTree n) (h : f.re = e :: r) :
    ∃ (g : KeyFrame n) (d : KeyTree n), g.fill d = f.fill c ∧ g.id = f.id ∧ g.le = f.le ++ [e] ∧ g.re = r ∧
      g.left = f.left ++ c.inorder ++ [e] ∧ f.right = e :: (d.inorder ++ g.right) := by
  obtain ⟨id,le,lk,re,rk,hl,hr⟩ := f
  obtain rfl : re = e :: r := h
  cases rk with
  | nil => simp at hr
  | cons d rk =>
      refine ⟨⟨id,le ++ [e],lk ++ [c],r,rk,by simp [hl],by simpa using hr⟩,d,by simp [Frame.fill],rfl,rfl,rfl,?_,?_⟩
      · have hlen : (lk.map BTree.inorder).length = le.length := by simp [hl]
        simp only [Frame.left, List.map_append, List.map_cons, List.map_nil, weave_append hlen, weave_cons_cons,
          weave_nil, List.flatten_nil, List.append_assoc]
      · simp only [Frame.right, List.map_cons, weave_cons_cons, List.nil_append, weave_cons d.inorder]

theorem Frame.exists_prev {f : KeyFrame n} (c : KeyTree n) (h : f.le = l ++ [e]) :
    ∃ (g : KeyFrame n) (d : KeyTree n), g.fill d = f.fill c ∧ g.id = f.id ∧ g.le = l ∧ g.re = e :: f.re ∧
      g.left ++ d.inorder ++ [e] = f.left := by
  obtain ⟨id,le,lk,re,rk,hl,hr⟩ := f
  obtain rfl : le = l ++ [e] := h
  obtain ⟨lk,d,rfl⟩ : ∃ lk' d, lk = lk' ++ [d] := by
    rcases List.eq_nil_or_concat' lk with rfl | ⟨lk',d,h⟩
    · simp at hl
    · exact ⟨lk',d,h⟩
  have hlk : lk.length = l.length := by simpa using hl
  refine ⟨⟨id,l,lk,e :: re,c :: rk,hlk,by simp [hr]⟩,d,by simp [Frame.fill],rfl,rfl,rfl,?_⟩
  have hlen : (lk.map BTree.inorder).length = l.length := by simp [hlk]
  simp only [Frame.left, List.map_append, List.map_cons, List.map_nil, weave_append hlen, weave_cons_cons,
    weave_nil, List.flatten_nil, List.append_assoc]

variable [Build] {N : Nat} {f : KeyFrame n} {c : KeyTree n} {p : KeyPath (n + 1) m}

-- The state in which a walk backwards finds the entry before a link: `lfpos` is one less.
structure Before (f : KeyFrame n) (c : KeyTree n) (p : KeyPath (n + 1) m) {k : Nat} (g : KeyFrame k)
    (d : KeyTree k) (q : KeyPath (k + 1) m) (e : KeyEnt) (r : List KeyEnt) : Prop where
  plug : q.plug (g.fill d) = p.plug (f.fill c)
  left : (Path.step g q).left ++ d.inorder ++ [e] = (Path.step f p).left
  ents : g.re = e :: r

theorem exec_bprvkyLoop_out (h : s.ctx.lf.lfblk = ZNULL) : exec (bprvkyLoop (N + 1)) s = .done (none, s) := by
  simp only [bprvkyLoop, exec_bind, exec_get, Prog.Outcome.bind_done, exec_ite, h, if_true, exec_pure]

-- `bprvky` goes up from the start of a block.
theorem exec_bprvkyLoop_pull (h : Index s (p.plug (f.fill c)) fs os) (hblk : s.ctx.lf.lfblk = f.id)
    (hpos : s.ctx.lf.lfpos < 0 ∨ f.size = 0) :
    exec (bprvkyLoop (N + 1)) s = (exec pullParent s).bind fun r => exec (bprvkyLoop N) { r.2 with
      ctx.lf := { r.2.ctx.lf with lfpos := r.2.ctx.lf.lfpos - 1, lfexct := false, draddr := ZNULL } } := by
  have hhas : s.disk.Has f.id := h.has (Index.mem_plug.2 (Or.inl List.mem_cons_self))
  have hnull : f.id ≠ ZNULL := hhas.ne_null
  obtain ⟨hp,-⟩ := (holds_plug_iff (Path.step f p) c).1 h.holds
  have hnk : (s.disk.block f.id).nkeys = f.size := hp.1.nkeys
  have hup : s.ctx.lf.lfpos < 0 ∨ (f.size : Int) = 0 := hpos.imp_right fun h => by exact_mod_cast h
  simp only [bprvkyLoop, exec_bind, exec_get, Prog.Outcome.bind_done, hblk, exec_ite, if_neg hnull, exec_brdblk,
    Disk.read_eq hhas, exec_bgtinf hhas, Block.getInf_ZNKEYS, hnk, if_pos hup, exec_setLf]

theorem exec_bprvkyLoop_take {f : KeyFrame (n + 1)} {c : KeyTree (n + 1)} {p : KeyPath (n + 2) m}
    (h : Index s (p.plug (f.fill c)) fs os) (hblk : s.ctx.lf.lfblk = f.id) (hx : s.ctx.lf.lfexct = false)
    (hpos : s.ctx.lf.lfpos = l.length) (hre : f.le = l) (hents : f.re ≠ []) :
    exec (bprvkyLoop (N + 1)) s = (exec (takeKey (s.disk.block f.id) ZPREV)
      { s with ctx.lf := { s.ctx.lf with lfexct := true } }).bind fun r => .done (some r.1, r.2) := by
  subst hre
  have hhas : s.disk.Has f.id := h.has (Index.mem_plug.2 (Or.inl List.mem_cons_self))
  have hnull : f.id ≠ ZNULL := hhas.ne_null
  obtain ⟨hp,hc⟩ := (holds_plug_iff (Path.step f p) c).1 h.holds
  have hnk : (s.disk.block f.id).nkeys = f.size := hp.1.nkeys
  have hlen := List.length_pos_iff.2 hents
  have hsize : f.size = f.le.length + f.re.length := rfl
  have hin : ¬ ((f.le.length : Int) < 0 ∨ (f.size : Int) = 0) := by omega
  have hlast : ¬ (f.le.length : Int) = f.size := by omega
  have hlink : (s.disk.block f.id).lnkblk f.le.length ≠ ZNULL := by
    rw [hp.1.lnkblk (by omega)]
    have hhasc : s.disk.Has c.link :=
      h.has (Index.mem_plug.2 (Or.inl ((Frame.ids_fill f c).mem_iff.2 (List.mem_append_left _ Index.link_mem))))
    exact hhasc.ne_null
  have hlow : (0 : Int) ≤ f.le.length := by omega
  simp only [bprvkyLoop, exec_bind, exec_get, Prog.Outcome.bind_done, hblk, exec_ite, if_neg hnull, exec_brdblk,
    Disk.read_eq hhas, exec_bgtinf hhas, Block.getInf_ZNKEYS, hnk, hpos, if_neg hin, bprvkyStep, if_neg hlast, hx,
    Bool.false_eq_true, if_false, if_neg hlink, exec_setLf, exec_pure, if_pos hlow]

def St.reset (s : St) : St := { s with ctx.lf := { s.ctx.lf with draddr := ZNULL } }

-- `bprvky` goes up until there is an entry before the link; the induction is on the way up.
theorem exec_bprvkyLoop_up (d N : Nat) {f : KeyFrame n} {c : KeyTree n} {p : KeyPath (n + 1) m}
    (h : Index s (p.plug (f.fill c)) fs os) (hwf : (p.plug (f.fill c)).RootWf ZMXKEY)
    (hblk : s.ctx.lf.lfblk = f.id) (hpos : s.ctx.lf.lfpos < 0 ∨ f.size = 0) (hstk : s.ctx.stk = down p)
    (hle : f.le = []) (hd : p.depth = d) (hN : d + 2 ≤ N) :
    ((Path.step f p).left = [] ∧ ∃ s', exec (bprvkyLoop N) s = .done (none, s') ∧ Outside s s') ∨
      ∃ (k : Nat) (g : KeyFrame k) (c' : KeyTree k) (q : KeyPath (k + 1) m) (e : KeyEnt) (r : List KeyEnt),
        Before f c p g c' q e r ∧ exec (bprvkyLoop N) s =
          (exec (takeKey (s.disk.block g.id) ZPREV) (s.reset.onto g q)).bind fun r => .done (some r.1, r.2) := by
  have hleft : f.left = [] := Frame.left_of_le hle
  induction d generalizing n s N with
  | zero =>
      obtain ⟨N,rfl⟩ : ∃ k, N = k + 2 := ⟨N - 2,by omega⟩
      cases p with
      | step g q => simp [Path.depth] at hd
      | root =>
          have hloop := exec_bprvkyLoop_pull (N := N + 1) h hblk hpos
          rw [exec_pull_root hstk, Prog.Outcome.bind_done] at hloop
          refine Or.inl ⟨?_,_,hloop.trans (exec_bprvkyLoop_out rfl),rfl,rfl,rfl,rfl,rfl⟩
          rw [Path.left_step, hleft, Path.left_root, List.append_nil]
  | succ d ih =>
      obtain ⟨N,rfl⟩ : ∃ k, N = k + 1 := ⟨N - 1,by omega⟩
      cases p with
      | root => simp [Path.depth] at hd
      | step g q =>
          have hloop := exec_bprvkyLoop_pull (N := N) h hblk hpos
          rw [exec_pull_step hstk, Prog.Outcome.bind_done] at hloop
          have hgsize : g.size ≠ 0 := by
            have hfloor : q.floor = 1 := by
              cases q with
              | root => simp [Path.floor]
              | step g q => rfl
            have hg := (Path.wf_step.1 ((Path.step g q).rootWf_plug_iff (f.fill c) |>.1 hwf).1).1.1
            omega
          have hframe : framePos g = g.le.length := if_neg hgsize
          have hix : Index { s with
              ctx.lf := { s.ctx.lf with lfpos := framePos g - 1, lfblk := g.id, lfexct := false, draddr := ZNULL }
              ctx.stk := down q } (q.plug (g.fill (f.fill c))) fs os := h.withCtx rfl
          rcases List.eq_nil_or_concat' g.le with hnil | ⟨l,e,hgle⟩
          · have hneg : framePos g - 1 < 0 := by
              rw [hframe, hnil]
              decide
            rcases ih N hix hwf rfl (Or.inl hneg) rfl hnil (by simpa [Path.depth] using hd) (by omega)
              (Frame.left_of_le hnil) with ⟨hnone,s1,hex,ho⟩ | ⟨k,g1,c1,q1,e,r,hbef,hex⟩
            · refine Or.inl ⟨?_,s1,hloop.trans hex,ho.disk,ho.ctx,ho.blk,ho.exct,ho.draddr⟩
              rw [Path.left_step, hnone, hleft, List.append_nil]
            · refine Or.inr ⟨k,g1,c1,q1,e,r,⟨hbef.plug,?_,hbef.ents⟩,hloop.trans hex⟩
              rw [hbef.left, Path.left_step f, hleft, List.append_nil]
          · obtain ⟨g1,c1,hfill,hid,hle1,hre1,hleft1⟩ := Frame.exists_prev (f.fill c) hgle
            obtain ⟨N,rfl⟩ : ∃ k, N = k + 1 := ⟨N - 1,by omega⟩
            have hpos1 : framePos g - 1 = l.length := by
              rw [hframe, hgle, List.length_append, List.length_singleton]
              omega
            rw [← hfill] at hix
            have htake := exec_bprvkyLoop_take (N := N) hix hid.symm rfl hpos1 hle1
              (by rw [hre1]; exact List.cons_ne_nil _ _)
            refine Or.inr ⟨n + 1,g1,c1,q,e,g.re,⟨?_,?_,hre1⟩,hloop.trans (htake.trans ?_)⟩
            · rw [hfill]
              rfl
            · rw [Path.left_step f, hleft, List.append_nil, Path.left_step, Path.left_step, ← hleft1]
              simp only [List.append_assoc]
            · rw [St.onto, hid, hle1, ← hpos1]
              rfl

end Btlib
