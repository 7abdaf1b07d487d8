import Btlib.Index.Back

namespace Btlib

open Multiway

variable [Build] {n m N : Nat} {s s' : St} {fs os : List Int} {e : KeyEnt} {r : List KeyEnt} {f : KeyFrame n}
  {c : KeyTree n} {p : KeyPath (n + 1) m} {Q : Option (Key × Int) × St → Prop}

-- The last found position is that of the entry behind the link.
structure OnKey (s : St) (f : KeyFrame n) (p : KeyPath (n + 1) m) (e : KeyEnt) (r : List KeyEnt) : Prop where
  blk : s.ctx.lf.lfblk = f.id
  pos : s.ctx.lf.lfpos = f.le.length
  stack : s.ctx.stk = down p
  exct : s.ctx.lf.lfexct = true
  ents : f.re = e :: r

-- What a move owes its caller: the state outside of the tree, or that at the next entry; `before` and `after`
-- are what must be on its two sides.
structure Moved (s : St) (dir : Int) (t : KeyTree m) (before after : List KeyEnt)
    (Q : Option (Key × Int) × St → Prop) : Prop where
  none : (if dir = ZNEXT then after else before) = [] → ∀ s', Outside s s' → Q (none, s')
  some : ∀ (k : Nat) (g : KeyFrame k) (d : KeyTree k) (q : KeyPath (k + 1) m) (e : KeyEnt) (r : List KeyEnt),
    q.plug (g.fill d) = t → g.re = e :: r →
      (if dir = ZNEXT then (Path.step g q).left ++ d.inorder = before else
        (Path.step g q).left ++ d.inorder ++ [e] = before) →
      (dir = ZNEXT → (Path.step g q).right = after) →
        (exec (takeKey (s.disk.block g.id) dir) (s.reset.onto g q)).Ends (Refused s.ctx.super.scroot) fun r =>
          Q (some r.1, r.2)

omit [Build] in
theorem OnKey.has (hb : OnKey s f p e r) (h : Index s (p.plug (f.fill c)) fs os) :
    s.disk.Has f.id ∧ f.id ≠ ZNULL ∧ (s.disk.block f.id).nkeys = f.size ∧ f.size = f.le.length + r.length + 1 := by
  have hhas : s.disk.Has f.id := h.has (Index.mem_plug.2 (Or.inl List.mem_cons_self))
  refine ⟨hhas,?_,((holds_plug_iff (Path.step f p) c).1 h.holds).1.1.nkeys,?_⟩
  · have := hhas.1
    change f.id ≠ -1
    omega
  · rw [Frame.size, hb.ents, List.length_cons, Nat.add_assoc]

omit [Build] in
theorem Outside.ofReset {g : KeyFrame n} {q : KeyPath (n + 1) m} (h : Outside (s.reset.onto g q) s') :
    Outside s s' := ⟨h.disk,h.ctx,h.blk,h.exct,h.draddr⟩

theorem Moved.same {dir : Int} {t : KeyTree m} {before after : List KeyEnt} (h : Moved s dir t before after Q)
    (stk : List Int) (blk pos a : Int) (x : Bool) : Moved { s with
      ctx.stk := stk
      ctx.lf := { s.ctx.lf with lfblk := blk, lfpos := pos, lfexct := x, draddr := a } } dir t before after Q :=
  ⟨fun hnil s' ho => h.none hnil s' ⟨ho.disk,ho.ctx,ho.blk,ho.exct,ho.draddr⟩,h.some⟩

theorem ends_taken {b : Block} {dir : Int} {E : Op → Disk → Prop} :
    ((exec (takeKey b dir) s).bind fun r => exec (pure (some r.1)) r.2).Ends E Q ↔
      (exec (takeKey b dir) s).Ends E fun r => Q (some r.1, r.2) := by
  simp only [exec_pure, Prog.Outcome.ends_bind, Prog.Outcome.ends_done]

-- `bleaf` in a leaf.
theorem exec_bleaf_leaf {dir : Int} {f : KeyFrame 0} {c : KeyTree 0} {p : KeyPath 1 m}
    (h : Index s (p.plug (f.fill c)) fs os) (hb : Below s f p) (hfuel : 0 < FUEL) :
    exec (bleaf dir) s = .done (some (s.disk.block f.id), s) := by
  have hhas : s.disk.Has f.id := h.has (Index.mem_plug.2 (Or.inl List.mem_cons_self))
  obtain ⟨hp,-⟩ := (holds_plug_iff (Path.step f p) c).1 h.holds
  have hstay : exec (bleaf dir) s = .done (some (s.disk.block s.ctx.lf.lfblk), s) :=
    exec_bleaf_stays (by rw [hb.blk]; exact hhas) hfuel (Or.inr (by
      rw [hb.blk, hb.pos]
      exact hp.1.lnkblk hb.size))
  rw [hstay, hb.blk]

-- `bnxtky` from an entry.
theorem ends_next (h : Index s (p.plug (f.fill c)) fs os) (hwf : (p.plug (f.fill c)).RootWf ZMXKEY)
    (hb : OnKey s f p e r) (hfuel : m + 2 ≤ FUEL) (hN : m + 2 ≤ N) {after : List KeyEnt}
    (hafter : (Path.step f p).right = e :: after)
    (hQ : Moved s ZNEXT (p.plug (f.fill c)) ((Path.step f p).left ++ c.inorder ++ [e]) after Q) :
    (exec (bnxtkyLoop N) s).Ends (Refused s.ctx.super.scroot) Q := by
  obtain ⟨N,rfl⟩ : ∃ k, N = k + 1 := ⟨N - 1,by omega⟩
  obtain ⟨hhas,hnull,hnk,hsize⟩ := hb.has h
  obtain ⟨g,d,hfill,hid,hgle,hgre,hgleft,hgright⟩ := Frame.exists_next c hb.ents
  have hm := p.height_eq
  have hmore : ¬ ((f.size : Int) ≤ f.le.length ∨ (f.size : Int) = 0) := by omega
  have hgsize : g.size = f.size := by
    rw [Frame.size, hgle, hgre, hsize, List.length_append, List.length_singleton]
    omega
  have hix : Index (s.reset.onto g p) (p.plug (g.fill d)) fs os := by
    rw [hfill]
    exact h.withCtx rfl
  have hglen : (f.le.length : Int) + 1 = g.le.length := by
    rw [hgle, List.length_append, List.length_singleton]
    rfl
  have hleft : (Path.step g p).left = (Path.step f p).left ++ c.inorder ++ [e] := by
    rw [Path.left_step, hgleft, Path.left_step]
    simp only [List.append_assoc]
  have hright : d.inorder ++ (Path.step g p).right = after := by
    rw [Path.right_step, hgright, List.cons_append, List.cons.injEq] at hafter
    rw [Path.right_step, ← hafter.2, List.append_assoc]
  simp only [bnxtkyLoop, exec_bind, exec_get, Prog.Outcome.bind_done, hb.blk, exec_ite, if_neg hnull, exec_brdblk,
    Disk.read_eq hhas, exec_bgtinf hhas, Block.getInf_ZNKEYS, hnk, hb.pos, if_neg hmore, bnxtkyStep, hb.exct,
    not_true_eq_false, if_false, exec_setLf, hglen]
  have hs : ({ s with ctx.lf :=
      { s.ctx.lf with lfblk := f.id, lfpos := g.le.length, lfexct := true, draddr := ZNULL } } : St) =
        s.reset.onto g p := by
    rw [St.onto, St.reset, hid, ← hb.stack]
  change ((exec (bleaf 0) { s with ctx.lf :=
    { s.ctx.lf with lfblk := f.id, lfpos := g.le.length, lfexct := true, draddr := ZNULL } }).bind _).Ends _ _
  rw [hs]
  have hbelow : Below (s.reset.onto g p) g p := ⟨by omega,rfl,rfl,rfl⟩
  cases n with
  | zero =>
      rw [exec_bleaf_leaf hix hbelow (by omega), Prog.Outcome.bind_done]
      simp only [exec_bind, exec_get, Prog.Outcome.bind_done, exec_ite]
      have hdnil : d.inorder = [] := rfl
      rw [hdnil, List.nil_append] at hright
      cases r with
      | cons e1 r1 =>
          rw [if_pos (by change (g.le.length : Int) < f.size; simp only [List.length_cons] at hsize; omega)]
          refine ends_taken.2 (hQ.some 0 g d p e1 r1 (by rw [hfill]) hgre ?_ fun _ => hright)
          rw [if_pos rfl, hdnil, List.append_nil, hleft]
      | nil =>
          rw [if_neg (by change ¬ (g.le.length : Int) < f.size; simp only [List.length_nil] at hsize; omega)]
          rcases exec_bnxtkyLoop_up p.depth N hix ⟨rfl,fun _ => rfl,rfl⟩ (Or.inr hgre) rfl rfl (by omega) with
            ⟨hnil,s1,hex,ho⟩ | ⟨k,g1,d1,q1,e1,r1,hbeh,hex⟩
          · rw [hex]
            exact hQ.none (by rw [if_pos rfl, ← hright, hnil]) s1 ho.ofReset
          · rw [hex, Prog.Outcome.ends_bind]
            refine hQ.some k g1 d1 q1 e1 r1 (by rw [hbeh.plug, hfill]) hbeh.ents ?_ fun _ => hbeh.right.trans hright
            rw [if_pos rfl, hbeh.left, hdnil, List.append_nil, hleft]
  | succ n =>
      refine (ends_bleaf 0 hix (by rw [hfill]; exact hwf) hbelow (by omega)).bind fun r hr => ?_
      obtain ⟨g1,q1,he,hr1,hr2⟩ := hr
      obtain ⟨b1,s1⟩ := r
      dsimp only at hr1 hr2 ⊢
      subst hr1
      subst hr2
      have hle1 : g1.le = [] := he.first rfl (Or.inl (Nat.succ_ne_zero n))
      simp only [exec_bind, exec_get, Prog.Outcome.bind_done, exec_ite]
      rw [if_pos (by rw [hle1]; change (0 : Int) < f.size; omega)]
      cases hre1 : g1.re with
      | nil => exact absurd (by rw [Frame.size, hle1, hre1]; rfl) he.size
      | cons e1 r1 =>
          refine ends_taken.2 (hQ.some 0 g1 BTree.nil q1 e1 r1 (he.plug.trans (by rw [hfill])) hre1 ?_ fun _ => ?_)
          · rw [if_pos rfl, he.left, if_pos rfl, List.append_nil, hleft]
            exact List.append_nil _
          · rw [he.right, if_pos rfl, hright]

omit [Build] in
theorem exists_before (c : KeyTree n) (p : KeyPath (n + 1) m) {l : List KeyEnt} (hle : f.le = l ++ [e]) :
    ∃ (g : KeyFrame n) (d : KeyTree n), Before f c p g d p e f.re ∧ g.id = f.id ∧
      (f.le.length : Int) - 1 = g.le.length := by
  obtain ⟨g,d,hfill,hid,hgle,hgre,hgleft⟩ := Frame.exists_prev c hle
  refine ⟨g,d,⟨by rw [hfill],?_,hgre⟩,hid,?_⟩
  · rw [Path.left_step, Path.left_step, ← hgleft]
    simp only [List.append_assoc]
  · rw [hgle, hle, List.length_append, List.length_singleton]
    omega

-- What is left of a turn of `bprvky` once it stands before the position `f.le.length`.
theorem ends_back (h : Index s (p.plug (f.fill c)) fs os) (hwf : (p.plug (f.fill c)).RootWf ZMXKEY)
    (hfuel : m + 1 ≤ N) (hblk : s.ctx.lf.lfblk = f.id) (hstk : s.ctx.stk = down p) (hd : s.ctx.lf.draddr = ZNULL)
    (hpos : s.ctx.lf.lfpos = f.le.length - 1) (hx : f.le ≠ [] → s.ctx.lf.lfexct = true)
    {after : List KeyEnt} (hQ : Moved s ZPREV (p.plug (f.fill c)) (Path.step f p).left after Q) :
    (if 0 ≤ s.ctx.lf.lfpos then
        (exec (takeKey (s.disk.block f.id) ZPREV) s).bind fun r => .done (some r.1, r.2)
      else exec (bprvkyLoop N) s).Ends (Refused s.ctx.super.scroot) Q := by
  have hm := p.height_eq
  have hreset : s.reset = s := by rw [St.reset, ← hd]
  rw [hpos]
  rcases List.eq_nil_or_concat' f.le with hnil | ⟨l,e,hle⟩
  · have hneg : ¬ (0 : Int) ≤ f.le.length - 1 := by
      rw [hnil]
      decide
    rw [if_neg hneg]
    rcases exec_bprvkyLoop_up p.depth N h hwf hblk (Or.inl (by omega)) hstk hnil rfl (by omega) with
      ⟨hnone,s1,hex,ho⟩ | ⟨k,g,d,q,e,r,hbef,hex⟩
    · rw [hex]
      exact hQ.none hnone s1 ho
    · rw [hex, Prog.Outcome.ends_bind]
      exact hQ.some k g d q e r hbef.plug hbef.ents hbef.left fun hd => absurd hd (by decide)
  · obtain ⟨g,d,hbef,hid,hlen⟩ := exists_before c p hle
    rw [if_pos (by omega)]
    refine ends_taken.2 ?_
    have honto : s.reset.onto g p = s := by
      rw [hreset, St.onto, hid, ← hlen, ← hpos, ← hblk, ← hstk, ← hx (by rw [hle]; simp)]
    have := hQ.some n g d p e f.re hbef.plug hbef.ents hbef.left fun hd => absurd hd (by decide)
    rwa [honto, hid] at this

-- `bprvky` from an entry.
theorem ends_prev (h : Index s (p.plug (f.fill c)) fs os) (hwf : (p.plug (f.fill c)).RootWf ZMXKEY)
    (hb : OnKey s f p e r) (hfuel : m + 2 ≤ FUEL) (hN : m + 2 ≤ N) {after : List KeyEnt}
    (hQ : Moved s ZPREV (p.plug (f.fill c)) ((Path.step f p).left ++ c.inorder) after Q) :
    (exec (bprvkyLoop N) s).Ends (Refused s.ctx.super.scroot) Q := by
  obtain ⟨N,rfl⟩ : ∃ k, N = k + 1 := ⟨N - 1,by omega⟩
  obtain ⟨hhas,hnull,hnk,hsize⟩ := hb.has h
  have hm := p.height_eq
  have hin : ¬ ((f.le.length : Int) < 0 ∨ (f.size : Int) = 0) := by omega
  have hlast : ¬ (f.le.length : Int) = f.size := by omega
  have hbelow : Below s f p := ⟨by omega,hb.blk,hb.pos,hb.stack⟩
  simp only [bprvkyLoop, exec_bind, exec_get, Prog.Outcome.bind_done, hb.blk, exec_ite, if_neg hnull, exec_brdblk,
    Disk.read_eq hhas, exec_bgtinf hhas, Block.getInf_ZNKEYS, hnk, hb.pos, if_neg hin, bprvkyStep, if_neg hlast,
    hb.exct, if_true]
  cases n with
  | zero =>
      rw [exec_bleaf_leaf h hbelow (by omega)]
      simp only [exec_bind, exec_setLf, Prog.Outcome.bind_done, exec_pure, exec_get, exec_ite, hb.blk, hb.pos, hb.exct]
      have hc : c.inorder = [] := rfl
      rw [hc, List.append_nil] at hQ
      exact ends_back (s := { s with
          ctx.lf := { s.ctx.lf with lfblk := f.id, lfpos := f.le.length - 1, lfexct := true, draddr := ZNULL } })
        (h.withCtx rfl) hwf (Nat.le_of_succ_le_succ hN) rfl hb.stack rfl rfl (fun _ => rfl) (hQ.same _ _ _ _ _)
  | succ n =>
      refine ((ends_bleaf 1 h hwf hbelow (by omega)).bind fun r hr => ?_).bind fun _ h => h
      obtain ⟨g,q,he,hr1,hr2⟩ := hr
      obtain ⟨b,s1⟩ := r
      dsimp only at hr1 hr2 ⊢
      subst hr1
      subst hr2
      simp only [exec_bind, exec_setLf, Prog.Outcome.bind_done, exec_pure, exec_get, exec_ite,
        Prog.Outcome.ends_done, hb.exct]
      have hgle : g.le ≠ [] := fun hnil => he.size (by
        rw [Frame.size, hnil, he.last (by decide) (Or.inl (Nat.succ_ne_zero n))]
        rfl)
      have hplug : q.plug (g.fill BTree.nil) = p.plug (f.fill c) := he.plug
      rw [← hplug] at hQ hwf h
      have hleft : (Path.step g q).left = (Path.step f p).left ++ c.inorder := he.left
      rw [← hleft] at hQ
      have hq := q.height_eq
      exact ends_back (s := { s with
          ctx.stk := down q
          ctx.lf := { s.ctx.lf with lfblk := g.id, lfpos := g.le.length - 1, lfexct := true, draddr := ZNULL } })
        (h.withCtx rfl) hwf (Nat.le_of_succ_le_succ hN) rfl rfl rfl rfl (fun _ => rfl) (hQ.same _ _ _ _ _)

-- `bprvky` from a gap.
theorem ends_prev_gap {f : KeyFrame 0} {c : KeyTree 0} {p : KeyPath 1 m} (h : Index s (p.plug (f.fill c)) fs os)
    (hwf : (p.plug (f.fill c)).RootWf ZMXKEY) (hb : AtLink s f p) (hx : s.ctx.lf.lfexct = false)
    (hN : m + 2 ≤ N) {after : List KeyEnt} (hQ : Moved s ZPREV (p.plug (f.fill c)) (Path.step f p).left after Q) :
    (exec (bprvkyLoop N) s).Ends (Refused s.ctx.super.scroot) Q := by
  obtain ⟨N,rfl⟩ : ∃ k, N = k + 1 := ⟨N - 1,by omega⟩
  have hm := p.height_eq
  have hhas : s.disk.Has f.id := h.has (Index.mem_plug.2 (Or.inl List.mem_cons_self))
  have hnull : f.id ≠ ZNULL := hhas.ne_null
  obtain ⟨hp,-⟩ := (holds_plug_iff (Path.step f p) c).1 h.holds
  have hnk : (s.disk.block f.id).nkeys = f.size := hp.1.nkeys
  by_cases h0 : f.size = 0
  · have hle : f.le = [] := List.length_eq_zero_iff.1 (by rw [Frame.size] at h0; omega)
    rcases exec_bprvkyLoop_up p.depth (N + 1) h hwf hb.blk (Or.inr h0) hb.stack hle rfl (by omega) with
      ⟨hnone,s1,hex,ho⟩ | ⟨k,g,d,q,e,r,hbef,hex⟩
    · rw [hex]
      exact hQ.none hnone s1 ho
    · rw [hex, Prog.Outcome.ends_bind]
      exact hQ.some k g d q e r hbef.plug hbef.ents hbef.left fun hd => absurd hd (by decide)
  have hpos := hb.pos h0
  have hin : ¬ ((f.le.length : Int) < 0 ∨ (f.size : Int) = 0) := by omega
  have hlink : (s.disk.block f.id).lnkblk f.le.length = ZNULL := hp.1.lnkblk h0
  simp only [bprvkyLoop, exec_bind, exec_get, Prog.Outcome.bind_done, hb.blk, exec_ite, if_neg hnull, exec_brdblk,
    Disk.read_eq hhas, exec_bgtinf hhas, Block.getInf_ZNKEYS, hnk, hpos, if_neg hin, bprvkyStep, hx, hlink,
    Bool.false_eq_true, if_false, if_true, exec_setLf, exec_pure, ite_self]
  exact ends_back (s := { s with
      ctx.lf := { s.ctx.lf with lfblk := f.id, lfpos := f.le.length - 1, lfexct := true, draddr := ZNULL } })
    (h.withCtx rfl) hwf (Nat.le_of_succ_le_succ hN) rfl hb.stack rfl rfl (fun _ => rfl) (hQ.same _ _ _ _ _)

end Btlib
