import Btlib.Index.Map
import Btlib.Source.Walk

namespace Btlib

open Multiway

variable {n m : Nat} {s s' : St} {fs os : List Int}

theorem FrameHolds.lnkblk {D : Int → Block} {f : KeyFrame n} {c : Int} (h : FrameHolds D f c) (hf : f.size ≠ 0) :
    (D f.id).lnkblk f.le.length = c := by
  have hne : f.le ++ f.re ≠ [] := fun hnil => hf (by
    rw [Frame.size, ← List.length_append, hnil]
    rfl)
  have hl := h.1
  rw [if_neg fun hc => hne hc.2] at hl
  have hr := hl.links
  rw [Reads.append_iff, List.length_map, f.hl, zero_add] at hr
  exact hr.2.1

theorem FrameHolds.nkeys {D : Int → Block} {f : KeyFrame n} {c : Int} (h : FrameHolds D f c) :
    (D f.id).nkeys = f.size := by
  rw [h.1.nkeys, List.length_append]
  rfl

theorem Frame.left_of_le {f : KeyFrame n} (h : f.le = []) : f.left = [] := by
  have hl := f.hl
  rw [h] at hl
  rw [Frame.left, h, List.length_eq_zero_iff.1 hl]
  rfl

theorem Frame.right_of_re {f : KeyFrame n} (h : f.re = []) : f.right = [] := by
  have hr := f.hr
  rw [h] at hr
  rw [Frame.right, h, List.length_eq_zero_iff.1 hr]
  rfl

variable [Build]

-- The last found position is the link that the frame leaves open.
structure Below (s : St) (f : KeyFrame n) (p : KeyPath (n + 1) m) : Prop where
  size : f.size ≠ 0
  blk : s.ctx.lf.lfblk = f.id
  pos : s.ctx.lf.lfpos = f.le.length
  stack : s.ctx.stk = down p

-- A leaf on the way down from an open link, on the side of `dir`.
structure Edge (s : St) (dir : Int) (f : KeyFrame n) (c : KeyTree n) (p : KeyPath (n + 1) m) (g : KeyFrame 0)
    (q : KeyPath 1 m) : Prop where
  plug : (Path.step g q).plug BTree.nil = p.plug (f.fill c)
  left : (Path.step g q).left = (Path.step f p).left ++ if dir = 0 then [] else c.inorder
  right : (Path.step g q).right = (if dir = 0 then c.inorder else []) ++ (Path.step f p).right
  size : g.size ≠ 0
  first : dir = 0 → n ≠ 0 ∨ f.le = [] → g.le = []
  last : dir ≠ 0 → n ≠ 0 ∨ f.re = [] → g.re = []
  uncut : 3 ≤ ZMXKEY → (Path.step f p).Uncut ZMXKEY sp → q.Uncut ZMXKEY sp
  depth : s.ctx.stk.length ≤ STKMAX + 1 → (down q).length ≤ STKMAX + 1

omit [Build] in
theorem exists_end (dir : Int) {blk : Int} {es : List KeyEnt} {ks : List (KeyTree n)}
    (hks : ks.length = es.length + 1) : ∃ (g : KeyFrame n) (c : KeyTree n), g.fill c = BTree.node blk es ks ∧
      g.size = es.length ∧ (dir = 0 → g.le = []) ∧ (dir ≠ 0 → g.re = []) ∧
        g.le.length = (if dir = 0 then 0 else es.length) := by
  by_cases hdir : dir = 0
  · cases ks with
    | nil => simp at hks
    | cons k ks =>
        refine ⟨⟨blk,[],[],es,ks,rfl,by simpa using hks⟩,k,rfl,by simp [Frame.size],fun _ => rfl,
          fun h => absurd hdir h,by simp [hdir]⟩
  · obtain ⟨lk,k,rfl⟩ : ∃ lk k, ks = lk ++ [k] := by
      rcases List.eq_nil_or_concat' ks with rfl | ⟨lk,k,h⟩
      · simp at hks
      · exact ⟨lk,k,h⟩
    refine ⟨⟨blk,es,lk,[],[],by simpa using hks,rfl⟩,k,by simp [Frame.fill],by simp [Frame.size],
      fun h => absurd h hdir,fun _ => rfl,by simp [hdir]⟩

-- `bleaf` goes down to a leaf; the induction is on the height of the open link.
theorem ends_bleafLoop (dir : Int) (N : Nat) (f : KeyFrame n) (c : KeyTree n) (p : KeyPath (n + 1) m)
    (h : Index s (p.plug (f.fill c)) fs os) (hwf : (p.plug (f.fill c)).RootWf ZMXKEY) (hb : Below s f p)
    (hN : n < N) :
    (exec (bleafLoop dir N (s.disk.block f.id)) s).Ends (Refused s.ctx.super.scroot) fun r =>
      ∃ (g : KeyFrame 0) (q : KeyPath 1 m), Edge s dir f c p g q ∧ r.1 = some (s.disk.block g.id) ∧
        r.2 = { s with ctx.stk := down q, ctx.lf := { s.ctx.lf with lfblk := g.id, lfpos := g.le.length } } := by
  induction n generalizing s m N with
  | zero =>
      obtain ⟨N,rfl⟩ : ∃ k, N = k + 1 := ⟨N - 1,by omega⟩
      obtain ⟨hp,-⟩ := (holds_plug_iff (Path.step f p) c).1 h.holds
      have hnull : (s.disk.block f.id).lnkblk s.ctx.lf.lfpos = ZNULL := by
        rw [hb.pos]
        exact hp.1.lnkblk hb.size
      simp only [bleafLoop, exec_bind, exec_get, Prog.Outcome.bind_done, exec_ite, hnull, if_true, exec_pure,
        Prog.Outcome.ends_done]
      refine ⟨f,p,⟨rfl,?_,?_,hb.size,fun _ h => h.resolve_left (by simp),fun _ h => h.resolve_left (by simp),
        fun _ h => h.2,fun h => hb.stack ▸ h⟩,rfl,?_⟩
      · split <;> simp
      · split <;> simp
      · rw [← hb.stack, ← hb.blk, ← hb.pos]
  | succ n ih =>
      obtain ⟨N,rfl⟩ : ∃ k, N = k + 1 := ⟨N - 1,by omega⟩
      obtain ⟨blk,es,ks,hc⟩ := c.eq_node
      have hcwf := ((Path.step f p).rootWf_plug_iff c).1 hwf
      have hwfc : (BTree.node blk es ks).Wf ZMXKEY 1 := hc ▸ hcwf.2
      obtain ⟨hlow,-,hks,-⟩ := BTree.wf_node.1 hwfc
      obtain ⟨g,c0,hg,hgs,hg0,hg1,hgl⟩ := exists_end dir hks
      rw [← hg] at hc
      subst hc
      have hgsize : g.size ≠ 0 := by omega
      have hid : g.id = blk := congrArg BTree.link hg
      obtain ⟨hp,-⟩ := (holds_plug_iff (Path.step f p) (g.fill c0)).1 h.holds
      obtain ⟨hp2,-⟩ := (holds_plug_iff (Path.step g (Path.step f p)) c0).1 h.holds
      have hlink : (s.disk.block f.id).lnkblk s.ctx.lf.lfpos = g.id := by
        rw [hb.pos]
        exact hp.1.lnkblk hb.size
      have hmem : g.id ∈ ((Path.step g (Path.step f p)).plug c0).ids :=
        Index.mem_plug.2 (Or.inr List.mem_cons_self)
      have hhas : s.disk.Has g.id := h.has hmem
      have hnull : g.id ≠ ZNULL := hhas.ne_null
      have hdeep : ∀ i : Nat, i ≤ 1 → (STKMAX : Int) ≤ ((s.ctx.stk.length + i : Nat) : Int) - 1 →
          Refused s.ctx.super.scroot (.report "BPUSH" QSTKOF) s.disk := by
        intro i hi hfull
        have hlen := congrArg List.length hb.stack
        rw [length_down] at hlen
        have hm := p.height_eq
        refine Or.inr ⟨⟨_,rfl⟩,m,?_,_,h.link,hwf,h.holds⟩
        simp only [STKMAX] at hfull
        omega
      simp only [bleafLoop, exec_bind, exec_get, Prog.Outcome.bind_done, exec_ite, hlink, if_neg hnull]
      by_cases hpush : (STKMAX : Int) ≤ s.ctx.stk.length - 1
      · rw [exec_bpush_refused hpush]
        exact hdeep 0 (by omega) (by exact_mod_cast hpush)
      rw [exec_bpush hpush]
      simp only [Prog.Outcome.bind_done]
      by_cases hpush2 : (STKMAX : Int) ≤ ((s.ctx.lf.lfblk :: s.ctx.stk).length : Int) - 1
      · rw [exec_bpush_refused hpush2]
        exact hdeep 1 le_rfl (by exact_mod_cast hpush2)
      rw [exec_bpush hpush2]
      simp only [Prog.Outcome.bind_done, exec_setLf, exec_brdblk, Disk.read_eq hhas]
      have hpushed : (s.ctx.lf.lfpos :: s.ctx.lf.lfblk :: s.ctx.stk).length ≤ STKMAX + 1 := by
        simp only [List.length_cons] at hpush2 ⊢
        omega
      -- the two sides differ in the position the child is entered at
      have hstep : ∀ j : Int, j = g.le.length →
          (exec (bleafLoop dir N (s.disk.block g.id)) { s with
            ctx.stk := s.ctx.lf.lfpos :: s.ctx.lf.lfblk :: s.ctx.stk
            ctx.lf := { s.ctx.lf with lfblk := g.id, lfpos := j } }).Ends (Refused s.ctx.super.scroot) fun r =>
              ∃ (g' : KeyFrame 0) (q : KeyPath 1 m), Edge s dir f (g.fill c0) p g' q ∧
                r.1 = some (s.disk.block g'.id) ∧ r.2 = { s with
                  ctx.stk := down q, ctx.lf := { s.ctx.lf with lfblk := g'.id, lfpos := g'.le.length } } := by
        intro j hj
        have hstk : s.ctx.lf.lfpos :: s.ctx.lf.lfblk :: s.ctx.stk = down (Path.step f p) := by
          rw [hb.pos, hb.blk, hb.stack, down, framePos, if_neg hb.size]
        have hix : Index { s with
            ctx.stk := s.ctx.lf.lfpos :: s.ctx.lf.lfblk :: s.ctx.stk
            ctx.lf := { s.ctx.lf with lfblk := g.id, lfpos := j } } ((Path.step f p).plug (g.fill c0)) fs os :=
          h.withCtx rfl
        refine (ih N g c0 (Path.step f p) hix hwf ⟨hgsize,rfl,hj,hstk⟩ (by omega)).mono
          (fun _ _ h => h) fun r hr => ?_
        obtain ⟨g',q,he,hr1,hr2⟩ := hr
        refine ⟨g',q,⟨he.plug,?_,?_,he.size,fun hd _ => he.first hd (Or.inr (hg0 hd)),
          fun hd _ => he.last hd (Or.inr (hg1 hd)),fun hcap hu => he.uncut hcap ⟨fun hfull => ?_,hu⟩,
          fun _ => he.depth hpushed⟩,hr1,hr2⟩
        · rw [he.left, Path.left_step, Frame.inorder_fill]
          split
          · rename_i hd
            rw [Frame.left_of_le (hg0 hd), List.append_nil]
          · rename_i hd
            rw [Frame.right_of_re (hg1 hd), List.append_nil, List.append_assoc]
        · rw [he.right, Path.right_step, Frame.inorder_fill]
          split
          · rename_i hd
            rw [Frame.left_of_le (hg0 hd), List.nil_append, List.append_assoc]
          · rename_i hd
            rw [Frame.right_of_re (hg1 hd), List.nil_append]
        · -- the first child and the last one are not where a full node is cut
          have hsp := sp_add hcap
          rw [g.hl, hgl]
          split <;> omega
      rw [hgl] at hstep
      by_cases hd : dir = 0
      · rw [if_pos hd]
        exact hstep 0 (by simp [hd])
      · rw [if_neg hd]
        have hnk : (s.disk.block g.id).nkeys = es.length := by
          rw [hp2.1.nkeys, hgs]
        rw [exec_bind, exec_bgtinf (by exact hhas)]
        simp only [exec_bind, exec_setLf, Block.getInf_ZNKEYS, hnk, Prog.Outcome.bind_done]
        exact hstep es.length (by simp [hd])

theorem ends_bleaf (dir : Int) {f : KeyFrame n} {c : KeyTree n} {p : KeyPath (n + 1) m}
    (h : Index s (p.plug (f.fill c)) fs os) (hwf : (p.plug (f.fill c)).RootWf ZMXKEY) (hb : Below s f p)
    (hfuel : n < FUEL) :
    (exec (bleaf dir) s).Ends (Refused s.ctx.super.scroot) fun r =>
      ∃ (g : KeyFrame 0) (q : KeyPath 1 m), Edge s dir f c p g q ∧ r.1 = some (s.disk.block g.id) ∧
        r.2 = { s with ctx.stk := down q, ctx.lf := { s.ctx.lf with lfblk := g.id, lfpos := g.le.length } } := by
  have hhas : s.disk.Has f.id := h.has (Index.mem_plug.2 (Or.inl List.mem_cons_self))
  obtain ⟨hp,-⟩ := (holds_plug_iff (Path.step f p) c).1 h.holds
  have hnk : (s.disk.block f.id).nkeys ≠ 0 := by
    rw [hp.1.nkeys]
    exact_mod_cast hb.size
  simp only [bleaf, exec_bind, exec_get, Prog.Outcome.bind_done, hb.blk, exec_brdblk, Disk.read_eq hhas,
    exec_bgtinf hhas, Block.getInf_ZNKEYS, exec_ite, if_neg hnk]
  exact ends_bleafLoop dir FUEL f c p h hwf hb hfuel

end Btlib
