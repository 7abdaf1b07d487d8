import Btlib.Walk.Starts

namespace Btlib

open Multiway Links

variable [Build] {n m : Nat} {s s' s1 : St} {fs D os : List Int} {live : Finset (Int × Nat)}
  {ent : Int × Nat → DKey} {vals : KeyEnt → List Int} {t : KeyTree m} {E : Op → Disk → Prop}
  {c : Cursor Item}

-- The position at one end of the root block, on a handle that has been let in.
def St.atRoot (s : St) (i : Int) : St :=
  { s.clear.entered with ctx.stk := [ZNULL, ZNULL], ctx.lf := ⟨[],s.ctx.super.scroot,i,false,ZNULL⟩ }

omit [Build] in
theorem exec_bpush_low {v : Int} (h : s.ctx.stk.length ≤ 1) :
    exec (bpush v) s = .done ((), { s with ctx.stk := v :: s.ctx.stk }) :=
  exec_bpush (by simp only [STKMAX]; omega)

theorem exec_btposAt (pos : Int) : exec (btposAt pos) s = exec (
    if pos = ZSTART then do
      setLf fun lf => { lf with lfkey := [], lfpos := 0 }
      let _ ← bleaf 0
      leave
      btgerr
    else if pos = ZEND then do
      let nkeys ← bgtinf s.ctx.super.scroot .ZNKEYS
      setLf fun lf => { lf with lfpos := nkeys }
      if nkeys = 0 then pure 0
      else do
        btposEnd
        leave
        btgerr
    else do
      leave
      btgerr) { s with ctx.stk := [ZNULL, ZNULL], ctx.lf := ⟨[],s.ctx.super.scroot,ZNULL,false,ZNULL⟩ } := by
  simp only [btposAt, bclrlf, bstkin, exec_bind, exec_setLf, exec_setStk, Prog.Outcome.bind_done]
  rw [exec_bpush_low (by exact Nat.zero_le 1)]
  simp only [Prog.Outcome.bind_done]
  rw [exec_bpush_low (by exact Nat.le_refl 1)]
  simp only [Prog.Outcome.bind_done, exec_get]

theorem exec_btpos_start (hopen : s.ctx.isopen = true) (ho : Open os s) :
    exec (btpos ZSTART) s = exec (do
      let _ ← bleaf 0
      leave
      btgerr) (s.atRoot 0) := by
  have ho0 : Open os s.clear := ho.withCtx rfl rfl rfl rfl
  rw [btpos, exec_api hopen, exec_bind, exec_enter ho0, Prog.Outcome.bind_done]
  simp only [if_true]
  rw [exec_btposAt, if_pos rfl]
  rfl

theorem exec_btpos_end (hopen : s.ctx.isopen = true) (ho : Open os s) :
    exec (btpos ZEND) s = exec (if (s.disk.block s.ctx.super.scroot).nkeys = 0 then pure 0
      else do
        btposEnd
        leave
        btgerr) (s.atRoot (s.disk.block s.ctx.super.scroot).nkeys) := by
  have ho0 : Open os s.clear := ho.withCtx rfl rfl rfl rfl
  have hnk : ∀ c : Ctx, exec (bgtinf s.clear.entered.ctx.super.scroot .ZNKEYS) ⟨c,s.disk⟩ =
      .done ((s.disk.block s.ctx.super.scroot).nkeys, ⟨c,s.disk⟩) := fun c => exec_bgtinf (s := ⟨c,s.disk⟩) ho.root .ZNKEYS
  rw [btpos, exec_api hopen, exec_bind, exec_enter ho0, Prog.Outcome.bind_done]
  simp only [if_true]
  rw [exec_btposAt, if_neg (by decide), if_pos rfl, exec_bind]
  exact (congrArg (Prog.Outcome.bind · _) (hnk _)).trans rfl

theorem Shelf.root (h : Shelf s t fs D os live ent vals) (dir : Int) :
    ∃ (n : Nat) (g : KeyFrame n) (d : KeyTree n) (hm : n + 1 = m), g.fill d = hm ▸ t ∧ g.id = s.ctx.super.scroot ∧
      (dir = 0 → g.le = []) ∧ (dir ≠ 0 → g.re = []) ∧ g.le.length = (if dir = 0 then 0 else g.size) ∧
        (g.size = 0 → n = 0) := by
  obtain ⟨n,rfl⟩ : ∃ n, m = n + 1 := ⟨m - 1,by have := h.pos; omega⟩
  obtain ⟨blk,es,ks,rfl⟩ := t.eq_node
  obtain ⟨hlow,-,hks,-⟩ := BTree.wf_node.1 h.wf
  obtain ⟨g,d,hfill,hsize,h0,h1,hlen⟩ := exists_end dir hks
  refine ⟨n,g,d,rfl,hfill,?_,h0,h1,by rw [hlen, hsize],fun hz => ?_⟩
  · rw [← h.index.link, ← hfill]
    rfl
  · by_contra hn
    simp only [Path.floor] at hlow
    rw [if_neg (by omega)] at hlow
    omega

omit [Build] in
theorem Shelf.length_size {g : KeyFrame n} (h0 : g.size = 0) : g.le = [] ∧ g.re = [] :=
  ⟨List.length_eq_zero_iff.1 (Nat.eq_zero_of_add_eq_zero h0).1,List.length_eq_zero_iff.1 (Nat.eq_zero_of_add_eq_zero h0).2⟩

-- A handle that has come to the place `c` in the tree `t` and has changed nothing else.
structure Positioned (s s' : St) (t : KeyTree m) (live : Finset (Int × Nat)) (ent : Int × Nat → DKey)
    (vals : KeyEnt → List Int) (c : Cursor Item) : Prop where
  disk : s'.disk = s.disk
  super : s'.ctx.super = s.ctx.super
  isopen : s'.ctx.isopen = s.ctx.isopen
  shared : s'.ctx.shared = s.ctx.shared
  stands : Stands s' t live ent vals c

-- What `btpos` does once it has the place `c`.
theorem ends_pos_leave (ho : Open os s) (hst : Remains s.clear.entered s1) (h : Shelf s1 t fs D os live ent vals)
    (hp : Place s1 t live ent vals (some c)) (herr : s1.ctx.err.qerror = 0) (hdisk : s1.disk = s.disk)
    (hsuper : s1.ctx.super = s.ctx.super) :
    (exec (do leave; btgerr) s1).Ends E fun r => r.1 = 0 ∧
      Here t.inorder D os live ent vals s.ctx.super.scroot (some c) r.2 ∧ r.2.ctx.shared = s.ctx.shared ∧
        (s.ctx.shared = false → Positioned s r.2 t live ent vals c) := by
  have ho0 : Open os s.clear := ho.withCtx rfl rfl rfl rfl
  obtain ⟨s2,hex,hopen,hout,-⟩ := exec_leave ho0 hst
  have hctx : s2.ctx.lf = s1.ctx.lf ∧ s2.ctx.stk = s1.ctx.stk ∧ s2.ctx.shared = s1.ctx.shared ∧
      s2.ctx.super.scroot = s1.ctx.super.scroot ∧ s2.ctx.err = s1.ctx.err ∧ s2.ctx.isopen = s1.ctx.isopen := by
    rw [hout.ctx]
    exact ⟨rfl,rfl,rfl,rfl,rfl,rfl⟩
  obtain ⟨hlf,hstk,hshared,hroot,herr2,hisopen⟩ := hctx
  rw [exec_bind, hex, Prog.Outcome.bind_done, exec_btgerr, Prog.Outcome.ends_done]
  refine ⟨by rw [herr2, herr],⟨m,t,fs,h.out hout (ho0.entered.stays hst ho0.count),rfl,hopen,
    hp.withCtx hlf hstk hshared,hroot.trans hst.root⟩,hshared.trans hst.shared,fun hs => ?_⟩
  obtain ⟨hdisk2,hsuper2⟩ := hout.kept (Or.inl (hst.shared.trans hs))
  exact ⟨hdisk2.trans hdisk,hsuper2.trans hsuper,hisopen.trans hst.isopen,hshared.trans hst.shared,hp.1.withCtx hlf hstk⟩

omit [Build] in
-- `btpos ZEND` once it stands behind the last key: it makes up a key that sorts after it.
theorem exec_btposEnd_tail {b : Block} (hb : s.disk.block s.ctx.lf.lfblk = b) (hhas : s.disk.Has s.ctx.lf.lfblk)
    (h0 : 0 ≤ s.ctx.lf.lfpos - 1) (h1 : ¬ b.nkeys ≤ s.ctx.lf.lfpos - 1) :
    exec (do
      let lf := (← get).lf
      let r ← bsrhbk lf.lfblk { loc := lf.lfpos - 1 }
      if r.result < 0 then bterr "BTPOS" QPOSERR (.num lf.lfblk)
      else setLf fun lf => { lf with lfkey := keycpy (bumpLast r.key) }) s = .done ((), { s with
        ctx.keyent := b.keyblk (s.ctx.lf.lfpos - 1)
        ctx.lf := { s.ctx.lf with lfkey := keycpy (bumpLast (keycpy (b.keyblk (s.ctx.lf.lfpos - 1)).key)) } }) := by
  have hloc : ¬ (0 ≤ s.ctx.lf.lfpos - 1 ∧ b.nkeys ≤ s.ctx.lf.lfpos - 1) := fun h => h1 h.2
  have hneg : ¬ s.ctx.lf.lfpos - 1 < 0 := not_lt.2 h0
  simp only [exec_bind, exec_get, Prog.Outcome.bind_done, bsrhbk, exec_brdblk, Disk.read_eq hhas, hb, exec_ite,
    if_neg hloc, if_pos h0, if_neg hneg, exec_modify, exec_pure, lt_self_iff_false, if_false, exec_setLf]

theorem stands_empty {g : KeyFrame 0} {d : KeyTree 0} (h0 : g.size = 0) (hblk : s.ctx.lf.lfblk = g.id)
    (hstk : s.ctx.stk = [ZNULL, ZNULL]) (hx : s.ctx.lf.lfexct = false) (hd : s.ctx.lf.draddr = ZNULL) :
    (g.fill d).inorder = [] ∧ Stands s (g.fill d) live ent vals ⟨[], none, []⟩ := by
  obtain ⟨hle,hre⟩ := Shelf.length_size h0
  have hleft := Frame.left_of_le hle
  have hright := Frame.right_of_re hre
  have hin : (g.fill d).inorder = [] := by
    rw [Frame.inorder_fill, hleft, hright]
    rfl
  refine ⟨hin,Or.inl ⟨g,.root,rfl,⟨hblk,fun hg => absurd h0 hg,hstk⟩,hx,hd,?_⟩⟩
  rw [Path.left_step, Path.right_step, hleft, hright]
  rfl

omit [Build] in
theorem tracks_empty (hkey : s.ctx.lf.lfkey = []) : Tracks s ⟨[], none, []⟩ :=
  ⟨by rw [hkey]; rfl,fun _ => ⟨fun _ hx => absurd hx List.not_mem_nil,fun _ hx => absurd hx List.not_mem_nil⟩⟩

omit [Build] in
theorem stays_atRoot (i : Int) (stk : List Int) (lf : Lf) :
    Remains s.clear.entered { s.atRoot i with ctx.stk := stk, ctx.lf := lf } :=
  (Remains.refl s.clear.entered).withCtx rfl rfl rfl rfl

-- `btpos ZSTART` leaves the place before all entries.
theorem ends_first (h : Shelf s t fs D os live ent vals) (ho : Open os s) (hf : t.inorder.length + 3 ≤ FUEL)
    (ht : s.ctx.shared = true → Start.first.Told t.inorder) :
    (exec (btpos ZSTART) s).Ends (Refused s.ctx.super.scroot) fun r => r.1 = 0 ∧
      Here t.inorder D os live ent vals s.ctx.super.scroot (some ⟨[], none, items vals t.inorder⟩) r.2 ∧
        r.2.ctx.shared = s.ctx.shared ∧ (s.ctx.shared = false → Positioned s r.2 t live ent vals ⟨[], none, items vals t.inorder⟩) := by
  have hfuel := h.fuel hf
  obtain ⟨n,g,d,rfl,hfill,hid,hle,-,hlen,hsz⟩ := h.root 0
  dsimp only at hfill
  subst hfill
  have h' : Shelf (s.atRoot 0) (g.fill d) fs D os live ent vals := h.same rfl rfl rfl
  have hle := hle rfl
  rw [exec_btpos_start h.isopen ho, exec_bind]
  by_cases h0 : g.size = 0
  · obtain rfl := hsz h0
    have hhas : (s.atRoot 0).disk.Has (s.atRoot 0).ctx.lf.lfblk := by
      change s.disk.Has s.ctx.super.scroot
      rw [← hid]
      exact h.index.has List.mem_cons_self
    have hnk : ((s.atRoot 0).disk.block (s.atRoot 0).ctx.lf.lfblk).nkeys = 0 := by
      have hp := (holds_fill_iff.1 h.index.holds).1.nkeys
      rw [h0, hid] at hp
      exact hp
    rw [exec_bleaf_stays hhas (by omega) (Or.inl hnk), Prog.Outcome.bind_done]
    obtain ⟨hin,hst⟩ := stands_empty (s := s.atRoot 0) (d := d) h0 hid.symm rfl rfl rfl
    refine ends_pos_leave ho (stays_atRoot 0 _ _) h' ⟨?_,fun _ => ?_⟩ rfl ?_ ?_
    · rw [hin]
      exact hst
    · rw [hin]
      exact tracks_empty rfl
    · rfl
    · rfl
  · have hbelow : Below (s.atRoot 0) g .root := ⟨h0,hid.symm,by rw [hle]; rfl,rfl⟩
    refine (ends_bleaf 0 (p := .root) h'.index h'.wf hbelow (by omega)).bind fun r hr => ?_
    obtain ⟨g1,q,he,-,hr2⟩ := hr
    obtain ⟨b1,s1⟩ := r
    dsimp only at hr2 ⊢
    subst hr2
    have hleft : (Path.step g1 q).left = [] := by
      rw [he.left, if_pos rfl, Path.left_step, Frame.left_of_le hle]
      rfl
    have hright : (Path.step g1 q).right = (g.fill d).inorder := by
      rw [he.right, if_pos rfl, Frame.inorder_fill, Frame.left_of_le hle, Path.right_step, Path.right_root,
        List.append_nil, List.nil_append]
    refine ends_pos_leave ho (stays_atRoot 0 _ _) (h'.same rfl rfl rfl)
      ⟨Or.inl ⟨g1,q,he.plug,⟨rfl,fun _ => rfl,rfl⟩,rfl,rfl,?_⟩,fun hs => tracks_first (ht hs) rfl⟩ rfl rfl rfl
    rw [hleft, hright]
    rfl

-- `btpos ZEND` leaves the place behind all entries.
theorem ends_last (h : Shelf s t fs D os live ent vals) (ho : Open os s) (hf : t.inorder.length + 3 ≤ FUEL)
    (ht : s.ctx.shared = true → Start.last.Told t.inorder) :
    (exec (btpos ZEND) s).Ends (Refused s.ctx.super.scroot) fun r => r.1 = 0 ∧
      Here t.inorder D os live ent vals s.ctx.super.scroot (some ⟨items vals t.inorder, none, []⟩) r.2 ∧
        r.2.ctx.shared = s.ctx.shared ∧ (s.ctx.shared = false → Positioned s r.2 t live ent vals ⟨items vals t.inorder, none, []⟩) := by
  have hfuel := h.fuel hf
  obtain ⟨n,g,d,rfl,hfill,hid,-,hre,hlen,hsz⟩ := h.root 1
  dsimp only at hfill
  subst hfill
  have hre := hre (by decide)
  have hnk : (s.disk.block s.ctx.super.scroot).nkeys = g.size := by
    rw [← hid]
    exact (holds_fill_iff.1 h.index.holds).1.nkeys
  rw [exec_btpos_end h.isopen ho, hnk]
  have h' : Shelf (s.atRoot g.size) (g.fill d) fs D os live ent vals := h.same rfl rfl rfl
  by_cases h0 : g.size = 0
  · obtain rfl := hsz h0
    rw [if_pos (by exact_mod_cast h0), exec_pure]
    obtain ⟨hin,hst⟩ := stands_empty (s := s.atRoot g.size) (d := d) h0 hid.symm rfl rfl rfl
    have ho0 : Open os s.clear := ho.withCtx rfl rfl rfl rfl
    refine ⟨rfl,⟨_,_,fs,h',rfl,ho0.entered.withCtx rfl rfl rfl rfl,⟨?_,fun _ => ?_⟩,rfl⟩,rfl,
      fun _ => ⟨rfl,rfl,rfl,rfl,?_⟩⟩
    · rw [hin]
      exact hst
    · rw [hin]
      exact tracks_empty rfl
    · rw [hin]
      exact hst
  · rw [if_neg (by exact_mod_cast h0), exec_bind]
    have hbelow : Below (s.atRoot g.size) g .root := ⟨h0,hid.symm,by rw [hlen, if_neg (by decide)]; rfl,rfl⟩
    rw [btposEnd, exec_bind]
    refine Prog.Outcome.Ends.bind ((ends_bleaf 1 (p := .root) h'.index h'.wf hbelow (by omega)).bind
      fun r hr => ?_) fun _ h => h
    obtain ⟨g1,q,he,-,hr2⟩ := hr
    obtain ⟨b1,s1⟩ := r
    dsimp only at hr2 ⊢
    have hstays : Remains s.clear.entered s1 := by
      rw [hr2]
      exact stays_atRoot _ _ _
    have h1 : Shelf s1 (g.fill d) fs D os live ent vals := by
      rw [hr2]
      exact h'.same rfl rfl rfl
    have hplug : q.plug (g1.fill BTree.nil) = g.fill d := he.plug
    have hre1 := he.last (by decide) (Or.inr hre)
    have hblk : s1.ctx.lf.lfblk = g1.id := by rw [hr2]
    have hsz1 : g1.size = g1.le.length := by rw [Frame.size, hre1, List.length_nil, Nat.add_zero]
    have hpos : s1.ctx.lf.lfpos = g1.size := by rw [hr2, hsz1]
    have hhas1 : s1.disk.Has s1.ctx.lf.lfblk := by
      rw [hblk]
      refine h1.index.has ?_
      rw [← hplug]
      exact Index.mem_plug.2 (Or.inl List.mem_cons_self)
    have hnk1 : (s1.disk.block s1.ctx.lf.lfblk).nkeys = g1.size := by
      rw [hblk]
      have hh := h1.index.holds
      rw [← hplug] at hh
      exact ((holds_plug_iff (Path.step g1 q) BTree.nil).1 hh).1.1.nkeys
    have hsize := he.size
    have hright : (Path.step g1 q).right = [] := by
      rw [he.right, if_neg (by decide), Path.right_step, Frame.right_of_re hre]
      rfl
    have hleft : (Path.step g1 q).left = (g.fill d).inorder := by
      rw [he.left, if_neg (by decide), Path.left_step, Path.left_root, List.nil_append, Frame.inorder_fill,
        Frame.right_of_re hre, List.append_nil]
    obtain ⟨l',e,hle1⟩ := (List.eq_nil_or_concat' g1.le).resolve_left fun hnil => hsize (by rw [hsz1, hnil]; rfl)
    obtain ⟨g2,d2,hbef,hid2,hlen2⟩ := exists_before (f := g1) BTree.nil q hle1
    obtain ⟨-,-,hent⟩ := h1.entry (hbef.plug.trans hplug) hbef.ents
    have hkey : (s1.disk.block s1.ctx.lf.lfblk).keyblk (s1.ctx.lf.lfpos - 1) = e := by
      rw [hblk, hpos, hsz1, hlen2, ← hid2]
      exact hent
    have hin : (g.fill d).inorder = ((Path.step g2 q).left ++ d2.inorder) ++ [e] := by
      rw [← hleft, ← hbef.left]
    have htail := exec_btposEnd_tail (s := s1) rfl hhas1 (by omega) (by rw [hnk1, hpos]; omega)
    rw [htail, Prog.Outcome.ends_done, hkey]
    refine ends_pos_leave ho (hstays.withCtx rfl rfl rfl rfl) (h1.same rfl rfl rfl)
      ⟨Or.inl ⟨g1,q,hplug,⟨hblk,fun _ => ?_,?_⟩,?_,?_,?_⟩,fun hs => ?_⟩ (by rw [hr2]; rfl)
      (by rw [hr2]; rfl) (by rw [hr2]; rfl)
    · rw [hr2]
    · rw [hr2]
    · rw [hr2]
      rfl
    · rw [hr2]
      rfl
    · rw [hleft, hright]
      rfl
    · have hs : s.ctx.shared = true := hstays.shared ▸ hs
      have hcopy := h.copies e (by rw [hin]; simp)
      have hsort := h.sorted
      have ht := ht hs
      rw [hin] at hsort ht ⊢
      exact tracks_last ht hsort hcopy rfl

end Btlib
