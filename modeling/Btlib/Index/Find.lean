import Btlib.Index.Split
import Btlib.Source.Keys
import Btlib.Theory.Room

namespace Btlib

open Multiway

variable [Build] {n m : Nat} {s s0 : St} {fs os : List Int} {k : Key}

-- Where a frame is left: the index of the child, or -1 in an empty root.
def framePos (f : KeyFrame n) : Int := if f.size = 0 then -1 else f.le.length

-- What the path stack holds, with the last found position on top.
def down : {n m : Nat} → KeyPath n m → List Int
  | _, _, .root => [ZNULL, ZNULL]
  | _, _, .step f p => framePos f :: f.id :: down p

-- No block of the path is full.
def Room (cap : Nat) : {n m : Nat} → KeyPath n m → Prop
  | _, _, .root => True
  | _, _, .step f p => f.size < cap ∧ Room cap p

omit [Build] in
theorem length_down (p : KeyPath n m) : (down p).length = 2 * p.depth + 2 := by
  induction p with
  | root => rfl
  | step f p ih => simp only [down, List.length_cons, ih, Path.depth]; omega

-- The tree on the disk has more levels than the path stack has room for.
def Deep (root : Int) (D : Int → Block) : Prop :=
  ∃ m, 20 < m ∧ ∃ t : KeyTree m, t.link = root ∧ t.RootWf ZMXKEY ∧ Holds D t

-- Where a call may be cut short: no block to be had, or a tree too high.
def Refused (root : Int) (o : Op) (d : Disk) : Prop :=
  NoBlock o d ∨ (∃ code, o = .report "BPUSH" code) ∧ Deep root d.block

-- What `bdelky` asks of the tree: where the deletion of `k` empties nodes, the siblings that take over are not full.
def RoomFor (k : Key) (t : KeyTree n) : Prop := t.Roomy ZMXKEY sp ZTHRES KeyEnt.key k

-- The tree and the free blocks a call begins with, and the key it is about.
structure Origin where
  {height : Nat}
  tree : KeyTree height
  free : List Int
  key : Key

variable {b : Origin}

-- A state on the way of a call that began in `s0` with what `b` says.
structure Spot (s0 s : St) (t : KeyTree m) (fs os : List Int) (b : Origin) : Prop where
  index : Index s t fs os
  wf : t.RootWf ZMXKEY
  inorder : t.inorder = b.tree.inorder
  keeps : Keeps s0 s os
  err : s.ctx.err = s0.ctx.err
  pos : 0 < m
  blocks : ∀ c ∈ b.free ++ b.tree.ids, c ∈ fs ++ t.ids
  roomy : 8 ≤ ZMXKEY → RoomFor b.key b.tree → RoomFor b.key t
  reaches : s0.disk.Reaches s.disk

structure Seek (s0 s : St) (p : KeyPath n m) (c : KeyTree n) (fs os : List Int) (b : Origin) : Prop where
  spot : Spot s0 s (p.plug c) fs os b
  room : s.ctx.super.smode = 0 → Room ZMXKEY p
  stack : s.ctx.lf.lfpos :: s.ctx.lf.lfblk :: s.ctx.stk = down p
  depth : s.ctx.stk.length ≤ STKMAX + 1
  lfkey : s.ctx.lf.lfkey = b.key
  exct : s.ctx.lf.lfexct = false
  draddr : s.ctx.lf.draddr = ZNULL
  before : ∀ e ∈ p.left, e.key < b.key
  after : ∀ e ∈ p.right, b.key < e.key

-- The last found position is that of the entry `e`.
structure Located (s : St) (p : KeyPath (n + 1) m) (blk : Int) (l : List KeyEnt) (e : KeyEnt) : Prop where
  lfkey : s.ctx.lf.lfkey = e.key
  lfblk : s.ctx.lf.lfblk = blk
  lfpos : s.ctx.lf.lfpos = l.length
  stack : s.ctx.stk = down p
  depth : p.depth < 20

-- The search has come to the entry `e`.
structure Aimed (s : St) (p : KeyPath (n + 1) m) (blk : Int) (l : List KeyEnt) (e : KeyEnt) (r : List KeyEnt) : Prop
    extends Located s p blk l e where
  room : s.ctx.super.smode = 0 → Room ZMXKEY p ∧ (l ++ e :: r).length ≠ ZMXKEY

-- And the entry has no duplicates that are selected.
structure AtKey (s : St) (p : KeyPath (n + 1) m) (blk : Int) (l : List KeyEnt) (e : KeyEnt) (r : List KeyEnt) : Prop
    extends Aimed s p blk l e r where
  exct : s.ctx.lf.lfexct = true
  draddr : s.ctx.lf.draddr = ZNULL

theorem AtKey.lf {p : KeyPath (n + 1) m} {blk : Int} {l r : List KeyEnt} {e : KeyEnt} (h : AtKey s p blk l e r) :
    s.ctx.lf = ⟨e.key,blk,l.length,true,ZNULL⟩ := by
  rw [← h.lfkey, ← h.lfblk, ← h.lfpos, ← h.exct, ← h.draddr]

-- The last found position is between the entries before and after a leaf's gap, where `k` belongs.
structure AtGap (s : St) (f : KeyFrame 0) (p : KeyPath 1 m) (k : Key) : Prop where
  lf : s.ctx.lf = ⟨k,f.id,framePos f,false,ZNULL⟩
  stack : s.ctx.stk = down p
  before : ∀ e ∈ (Path.step f p).left, e.key < k
  after : ∀ e ∈ (Path.step f p).right, k < e.key
  room : s.ctx.super.smode = 0 → f.size < ZMXKEY

-- The descent of `bfndkyLoop`, without the step to the first of the duplicates.
def seekLoop : Nat → (cblk : Int) → Srh → BT (Bool × Int)
  | 0, _, _ => hang
  | n + 1, cblk, o =>
      if cblk = ZNULL then return (false, o.val)
      else do
        let nkeys ← bgtinf cblk .ZNKEYS
        let c ← get
        if nkeys = ZMXKEY ∧ c.super.smode = 0 then
          let newblk ← bsptbk cblk
          if newblk < 0 then
            bterr "BFNDKY" QSPLIT .none
            return (false, o.val)
          else if cblk ≠ (← get).super.scroot then
            let pblk := (← get).lf.lfblk
            pullParent
            seekLoop n pblk o
          else seekLoop n cblk o
        else
          bpush c.lf.lfblk
          bpush c.lf.lfpos
          let o ← bsrhbk cblk { o with loc := -1 }
          setLf fun lf => { lf with lfblk := cblk, lfpos := o.loc }
          if o.result < 0 then seekLoop n o.link1 o
          else if 0 < o.result then
            setLf fun lf => { lf with lfpos := lf.lfpos + 1 }
            seekLoop n o.link2 o
          else return (true, o.val)

theorem bfndkyLoop_eq (n : Nat) (cblk : Int) (o : Srh) : bfndkyLoop n cblk o = do
    let f ← seekLoop n cblk o
    if f.1 then
      setLf fun lf => { lf with lfexct := true }
      let r ← btduppos ZNEXT f.2
      return (0, r.2)
    else return (QNOKEY, f.2) := by
  induction n generalizing cblk o with
  | zero => rfl
  | succ n ih =>
      rw [bfndkyLoop, seekLoop]
      split
      · simp
      · simp only [bind_assoc]
        congr 1
        funext nkeys
        congr 1
        funext c
        split
        · simp only [bind_assoc]
          congr 1
          funext newblk
          split
          · simp
          · simp only [bind_assoc]
            congr 1
            funext c'
            split
            · simp only [bind_assoc, ih]
            · exact ih _ _
        · simp only [bind_assoc]
          congr 1
          funext _
          congr 1
          funext _
          congr 1
          funext o
          congr 1
          funext _
          split
          · exact ih _ _
          · split
            · simp only [bind_assoc, ih]
            · simp

section Search

variable {blk : Int} {o : Srh}

omit [Build] in
theorem exec_bsrhbk_search (h : s.disk.Has blk) (ho : o.loc = -1) {i r : Int}
    (hs : (s.disk.block blk).search o.key (s.disk.block blk).nkeys.toNat 0
      ((s.disk.block blk).nkeys - 1) (-1) (-1) = (i, r)) (hi : 0 ≤ i) :
    exec (bsrhbk blk o) s =
      .done ({ o with
          loc := i, result := r, val := ((s.disk.block blk).keyblk i).val,
          link1 := (s.disk.block blk).lnkblk i, link2 := (s.disk.block blk).lnkblk (i + 1) },
        { s with ctx.keyent := (s.disk.block blk).keyblk i }) := by
  simp [bsrhbk, Disk.read_eq h, ho, hs, not_lt.2 hi]

omit [Build] in
theorem exec_bsrhbk_empty (h : s.disk.Has blk) (ho : o.loc = -1)
    (hn : (s.disk.block blk).nkeys = 0) :
    exec (bsrhbk blk o) s =
      .done ({ o with loc := -1, result := -1, val := 0, link1 := ZNULL, link2 := ZNULL }, s) := by
  simp [bsrhbk, Disk.read_eq h, ho, hn, Block.search]

end Search

omit [Build] in
theorem exec_pullParent {u v : Int} {stk : List Int} (h : s.ctx.stk = u :: v :: stk) :
    exec pullParent s =
      .done ((), { s with ctx.lf := { s.ctx.lf with lfpos := u, lfblk := v }, ctx.stk := stk }) := by
  simp only [pullParent, exec_bind, exec_bpull h, Prog.Outcome.bind_done, exec_setLf]
  rw [exec_bpull (show ({ s with ctx.lf := _, ctx.stk := v :: stk } : St).ctx.stk = v :: stk from rfl)]
  simp only [Prog.Outcome.bind_done]

section Loop

variable {blk : Int} {l r : List KeyEnt} {e : KeyEnt} {lk rk : List (KeyTree n)} {Q : (Bool × Int) × St → Prop}

omit [Build] in
theorem Keeps.withCtx {s' : St} {c : Ctx} (h : Keeps s s' os) (h1 : c.isopen = s'.ctx.isopen)
    (h2 : c.shared = s'.ctx.shared) (h3 : c.lckcnt = s'.ctx.lckcnt)
    (h4 : c.super = s'.ctx.super) : Keeps s { s' with ctx := c } os :=
  h.trans ⟨h1,h2,h3,by rw [h4],by rw [h4],fun _ _ => rfl,.refl _⟩

theorem Spot.withCtx {t : KeyTree m} {c : Ctx} (h : Spot s0 s t fs os b) (h1 : c.isopen = s.ctx.isopen)
    (h2 : c.shared = s.ctx.shared) (h3 : c.lckcnt = s.ctx.lckcnt) (h4 : c.super = s.ctx.super)
    (h5 : c.err = s.ctx.err) : Spot s0 { s with ctx := c } t fs os b :=
  ⟨h.index.withCtx h4,h.wf,h.inorder,h.keeps.withCtx h1 h2 h3 h4,h5.trans h.err,h.pos,h.blocks,h.roomy,h.reaches⟩

theorem Spot.since {s1 : St} {t : KeyTree m} (h : Spot s1 s t fs os b) (hk : Keeps s0 s1 os)
    (herr : s1.ctx.err = s0.ctx.err) (hd : s1.disk = s0.disk) : Spot s0 s t fs os b :=
  ⟨h.index,h.wf,h.inorder,hk.trans h.keeps,h.err.trans herr,h.pos,h.blocks,h.roomy,hd ▸ h.reaches⟩

-- What the search owes its caller: the position of the key, or of the gap it belongs into.
structure Owes (s0 : St) (os : List Int) (b : Origin) (Q : (Bool × Int) × St → Prop) : Prop where
  found : ∀ {n m : Nat} (p : KeyPath (n + 1) m) (blk : Int) (l : List KeyEnt) (e : KeyEnt)
    (r : List KeyEnt) (ks : List (KeyTree n)) (s : St) (fs : List Int),
    Spot s0 s (p.plug (BTree.node blk (l ++ e :: r) ks)) fs os b → e.key = b.key → Aimed s p blk l e r →
      s.ctx.lf.lfexct = false → s.ctx.lf.draddr = ZNULL → Q ((true, e.val), s)
  missed : ∀ {m : Nat} (f : KeyFrame 0) (p : KeyPath 1 m) (s : St) (fs : List Int) (v : Int),
    Spot s0 s ((Path.step f p).plug BTree.nil) fs os b → AtGap s f p b.key → Q ((false, v), s)

-- The turns the loop has left: every split adds a block, every other turn goes down.
def turns (b : Origin) (ids n : Nat) : Nat := 2 * (b.tree.inorder.length + 1 - ids) + n + 1

omit [Build] in
theorem down_cons (p : KeyPath n m) : ∃ a b stk, down p = a :: b :: stk := by
  cases p with
  | root => exact ⟨_,_,_,rfl⟩
  | step f p => exact ⟨_,_,_,rfl⟩

omit [Build] in
theorem split_list {α : Type} {es : List α} {i j : Nat} (h : es.length = i + (j + 1)) :
    ∃ l e r, es = l ++ e :: r ∧ l.length = i ∧ r.length = j := by
  have hi : i < es.length := by omega
  refine ⟨es.take i,es[i],es.drop (i + 1),?_,?_,?_⟩
  · rw [← List.drop_eq_getElem_cons hi, List.take_append_drop]
  · simp only [List.length_take]
    omega
  · simp only [List.length_drop]
    omega

section Turn

variable {p : KeyPath n m} {c : KeyTree n}

theorem Seek.sorted_focus (h : Seek s0 s p c fs os b) (hL : Sorted KeyEnt.key b.tree.inorder) :
    Sorted KeyEnt.key (p.left ++ c.inorder ++ p.right) := by
  rw [← p.inorder_plug, h.spot.inorder]
  exact hL

theorem Seek.length_ids (h : Seek s0 s p c fs os b) : (p.plug c).ids.length ≤ b.tree.inorder.length + 1 := by
  rw [← h.spot.inorder]
  exact BTree.length_ids_le_succ h.spot.wf

theorem Seek.leads (h : Seek s0 s p c fs os b) : p.Leads KeyEnt.key b.key :=
  Path.leads_of h.before fun e he => (h.after e he).le

end Turn

theorem Seek.node {p : KeyPath (n + 1) m} {es : List KeyEnt} {ks : List (KeyTree n)}
    (h : Seek s0 s p (BTree.node blk es ks) fs os b) : s.disk.Has blk ∧
      (s.disk.block blk).Shows es (nodeLinks es ks) ∧ (BTree.node blk es ks).Wf ZMXKEY p.floor :=
  ⟨h.spot.index.has (Index.mem_plug.2 (Or.inl List.mem_cons_self)),
    (holds_node.1 ((holds_plug_iff _ _).1 h.spot.index.holds).2).1,((p.rootWf_plug_iff _).1 h.spot.wf).2⟩

theorem Seek.sorted_node {p : KeyPath (n + 1) m} {es : List KeyEnt} {ks : List (KeyTree n)}
    (h : Seek s0 s p (BTree.node blk es ks) fs os b) (hL : Sorted KeyEnt.key b.tree.inorder) : Sorted KeyEnt.key es :=
  (h.sorted_focus hL).left.right.sublist sublist_weave

theorem exists_halves (hcap : 3 ≤ ZMXKEY) {es : List KeyEnt} {ks : List (KeyTree n)} (hfull : es.length = ZMXKEY)
    (hks : ks.length = es.length + 1) : ∃ l e r lk rk, es = l ++ e :: r ∧ ks = lk ++ rk ∧ l.length = sp ∧
      r.length = sp2 ∧ lk.length = l.length + 1 ∧ rk.length = r.length + 1 := by
  obtain ⟨l,e,r,rfl,hl,hr⟩ := split_list (hfull.trans (sp_add hcap).1.symm)
  simp only [List.length_append, List.length_cons] at hks
  refine ⟨l,e,r,ks.take (l.length + 1),ks.drop (l.length + 1),rfl,(List.take_append_drop _ _).symm,hl,hr,?_,?_⟩
  · simp only [List.length_take]
    omega
  · simp only [List.length_drop]
    omega

theorem two_le_sp (h : 8 ≤ ZMXKEY) : 2 ≤ sp ∧ 2 ≤ sp2 := by
  simp only [sp, sp2]
  split <;> omega

section Split

variable {s1 : St} {fs1 : List Int} {a d : Int} (hcap : 3 ≤ ZMXKEY) (hL : Sorted KeyEnt.key b.tree.inorder)
  (hl : l.length = sp) (hr : r.length = sp2) (hlk : lk.length = l.length + 1) (hrk : rk.length = r.length + 1)
  (hkeeps : Keeps s s1 os) (herr : s1.ctx.err = s.ctx.err) (hreach : s.disk.Reaches s1.disk)
include hcap hL hl hr hlk hrk hkeeps herr hreach

theorem Seek.split_root (h : Seek s0 s Path.root (BTree.node blk (l ++ e :: r) (lk ++ rk)) fs os b)
    (hindex : Index s1 (BTree.node blk [e] [BTree.node a l lk, BTree.node d r rk]) fs1 os)
    (hlf : s1.ctx.lf = s.ctx.lf) (hstk : s1.ctx.stk = s.ctx.stk) (hfree : ∀ c ∈ fs, c ∈ fs1 ∨ c = a ∨ c = d) :
    Seek s0 s1 Path.root (BTree.node blk [e] [BTree.node a l lk, BTree.node d r rk]) fs1 os b := by
  have hsp := sp_add hcap
  have hcut := BTree.Wf.cut (b := d) h.spot.wf hlk (List.ne_nil_of_length_pos (by omega))
    (List.ne_nil_of_length_pos (by omega))
  have hwf : (BTree.node blk [e] [BTree.node a l lk, BTree.node d r rk]).RootWf ZMXKEY := by
    simp only [BTree.RootWf, Path.floor, BTree.wf_node, List.length_cons, List.length_nil, List.mem_cons,
      List.not_mem_nil, or_false, forall_eq_or_imp, forall_eq]
    exact ⟨by split <;> omega,by omega,trivial,hcut.1,hcut.2⟩
  refine ⟨⟨hindex,hwf,?_,h.spot.keeps.trans hkeeps,herr.trans h.spot.err,by omega,fun c hc => ?_,fun h8 hb => ?_,
    h.spot.reaches.trans hreach⟩,
    fun _ => trivial,?_,?_,?_,?_,?_,by simp,by simp⟩
  · rw [Path.plug_root, inorder_cut hlk]
    exact h.spot.inorder
  · have hids : ∀ c ∈ (BTree.node blk (l ++ e :: r) (lk ++ rk)).ids,
        c ∈ (BTree.node blk [e] [BTree.node a l lk, BTree.node d r rk]).ids := by
      intro c hc
      simp only [BTree.ids_node, List.map_cons, List.map_nil, List.flatten_cons, List.flatten_nil, List.append_nil,
        List.map_append, List.flatten_append, List.cons_append, List.mem_cons, List.mem_append] at hc ⊢
      tauto
    rcases List.mem_append.1 (h.spot.blocks c hc) with hc | hc
    · refine List.mem_append.2 ((hfree c hc).imp_right fun hc => ?_)
      simp only [Path.plug_root, BTree.ids_node, List.map_cons, List.map_nil, List.flatten_cons, List.flatten_nil,
        List.append_nil, List.cons_append, List.mem_cons, List.mem_append]
      tauto
    · exact List.mem_append_right _ (hids c hc)
  · have htwo := two_le_sp h8
    refine BTree.Roomy.cut_root hlk hl htwo.1 (by omega) ?_ (h.sorted_node hL) (h.spot.roomy h8 hb)
    rw [List.length_append, List.length_cons]
    omega
  · rw [hlf, hstk, h.stack]
    rfl
  · rw [hstk]
    exact h.depth
  · rw [hlf, h.lfkey]
  · rw [hlf, h.exct]
  · rw [hlf, h.draddr]

theorem Seek.split_step {f : KeyFrame (n + 1)} {p : KeyPath (n + 2) m} {u v : Int} {stk : List Int}
    (h : Seek s0 s (Path.step f p) (BTree.node blk (l ++ e :: r) (lk ++ rk)) fs os b) (hmode : s.ctx.super.smode = 0)
    (hindex : Index s1 (p.plug (f.fillTwo (BTree.node blk l lk) e (BTree.node a r rk))) fs1 os)
    (hdown : down p = u :: v :: stk) (hfree : ∀ c ∈ fs, c ∈ fs1 ∨ c = a) :
    Seek s0 { s1 with ctx.lf := { s.ctx.lf with lfpos := u, lfblk := v }, ctx.stk := stk } p
      (f.fillTwo (BTree.node blk l lk) e (BTree.node a r rk)) fs1 os b := by
  have hsp := sp_add hcap
  have hpath := ((Path.step f p).rootWf_plug_iff _).1 h.spot.wf
  have hfwf := (Path.wf_step.1 hpath.1).1
  have hfloor : p.floor = 1 := by cases p <;> simp [Path.floor]
  have hpos : f.size ≠ 0 := by
    have := hfwf.1
    omega
  have hcut := BTree.Wf.cut (b := a) hpath.2 hlk (List.ne_nil_of_length_pos (by omega))
    (List.ne_nil_of_length_pos (by omega))
  have hwf : (p.plug (f.fillTwo (BTree.node blk l lk) e (BTree.node a r rk))).RootWf ZMXKEY := by
    rw [Path.rootWf_plug_iff, hfloor]
    exact ⟨(Path.wf_step.1 hpath.1).2,Frame.wf_fillTwo f hfwf (h.room hmode).1 hcut.1 hcut.2⟩
  have hin : (p.plug (f.fillTwo (BTree.node blk l lk) e (BTree.node a r rk))).inorder =
      ((Path.step f p).plug (BTree.node blk (l ++ e :: r) (lk ++ rk))).inorder := by
    rw [Path.inorder_plug, f.inorder_fillTwo, Path.inorder_plug, BTree.inorder_node, BTree.inorder_node,
      BTree.inorder_node, List.map_append, weave_split (by simp [hlk])]
    simp
  have hdepth := h.depth
  have hstk := h.stack
  rw [down, hdown] at hstk
  injection hstk with _ hstk
  injection hstk with _ hstk
  refine ⟨⟨hindex.withCtx rfl,hwf,hin.trans h.spot.inorder,(h.spot.keeps.trans hkeeps).withCtx rfl rfl rfl rfl,
    herr.trans h.spot.err,h.spot.pos,fun c hc => ?_,fun h8 hb => ?_,h.spot.reaches.trans hreach⟩,
    fun _ => (h.room hmode).2,hdown.symm,?_,h.lfkey,h.exct,h.draddr,?_,?_⟩
  · have hids : (p.plug (f.fillTwo (BTree.node blk l lk) e (BTree.node a r rk))).ids.Perm
        (a :: ((Path.step f p).plug (BTree.node blk (l ++ e :: r) (lk ++ rk))).ids) := p.ids_plug_cut f
    rcases List.mem_append.1 (h.spot.blocks c hc) with hc | hc
    · refine List.mem_append.2 ((hfree c hc).imp_right fun hc => ?_)
      exact hids.mem_iff.2 (hc ▸ List.mem_cons_self)
    · exact List.mem_append_right _ (hids.mem_iff.2 (List.mem_cons_of_mem _ hc))
  · have htwo := two_le_sp h8
    refine h.leads.roomy_cut hlk hl htwo.1 (by omega) ?_ (h.sorted_node hL) hpos (h.spot.roomy h8 hb)
    rw [List.length_append, List.length_cons]
    omega
  · rw [hstk, List.length_cons, List.length_cons] at hdepth
    change stk.length ≤ STKMAX + 1
    omega
  · exact fun x hx => h.before x (List.mem_append_left _ hx)
  · exact fun x hx => h.after x (List.mem_append_right _ hx)

end Split

section Turns

variable {o : Srh}

theorem ends_loop_split {N : Nat} {c : KeyTree (n + 1)} {p : KeyPath (n + 1) m} (hcap : 3 ≤ ZMXKEY)
    (h : Seek s0 s p c fs os b) (hL : Sorted KeyEnt.key b.tree.inorder) (hmode : s.ctx.super.smode = 0)
    (hfull : (Node.ents c).length = ZMXKEY)
    (ih : ∀ {n' m' : Nat} (p' : KeyPath n' m') (c' : KeyTree n') (s' : St) (fs' : List Int),
      Seek s0 s' p' c' fs' os b → turns b (p'.plug c').ids.length n' < turns b (p.plug c).ids.length (n + 1) →
      (exec (seekLoop N c'.link o) s').Ends (Refused s0.ctx.super.scroot) Q) :
    (exec (seekLoop (N + 1) c.link o) s).Ends (Refused s0.ctx.super.scroot) Q := by
  obtain ⟨blk,es,ks,rfl⟩ := c.eq_node
  obtain ⟨hblk,hshow,hwf⟩ := h.node
  obtain ⟨l,e,r,lk,rk,rfl,rfl,hl,hr,hlk,hrk⟩ := exists_halves hcap hfull hwf.2.2.1
  have hnk : (s.disk.block blk).nkeys = ZMXKEY := by
    rw [hshow.nkeys]
    exact_mod_cast hfull
  have hE : ∀ o d, NoBlock o d → Refused s0.ctx.super.scroot o d := fun _ _ hno => Or.inl hno
  rw [link_node]
  simp only [seekLoop, if_neg hblk.ne_null, exec_bind, exec_bgtinf hblk, exec_get,
    Prog.Outcome.bind_done, Block.getInf_ZNKEYS, hnk, hmode, exec_ite, and_self, if_true]
  cases p with
  | root =>
      refine Prog.Outcome.Ends.bind (ends_bsptbk_root hcap h.spot.index hl hr hlk hrk hE) ?_
      rintro ⟨a,s1⟩ ⟨ha,fs1,d,hindex,hkeeps,hlf,hstk,herr,hfree,hreach⟩
      have hscroot : blk = s1.ctx.super.scroot := hindex.link
      simp only at ha
      simp only [if_neg (not_lt.2 ha)]
      rw [if_neg (not_not.2 hscroot)]
      have hseek := h.split_root hcap hL hl hr hlk hrk hkeeps herr hreach hindex hlf hstk hfree
      refine ih Path.root _ s1 fs1 hseek ?_
      have hle := hseek.length_ids
      simp only [Path.plug_root, BTree.ids_node, List.map_cons, List.map_nil, List.flatten_cons,
        List.flatten_nil, List.append_nil, List.cons_append, List.length_cons, List.length_append,
        List.map_append, List.flatten_append, turns] at hle ⊢
      omega
  | step f p =>
      have hroom := (h.room hmode).1
      have hsize : f.size ≠ 0 := by
        have hlow := (Path.wf_step.1 (((Path.step f p).rootWf_plug_iff _).1 h.spot.wf).1).1.1
        have hfloor : p.floor = 1 := by cases p <;> simp [Path.floor]
        omega
      have hstk := h.stack
      simp only [down, List.cons.injEq] at hstk
      obtain ⟨-,hlfblk,hstk⟩ := hstk
      have hsorted := h.sorted_focus hL
      rw [BTree.inorder_node, List.map_append, weave_split (by simp [hlk])] at hsorted
      have hle : ∀ x ∈ f.le, x.key < e.key := fun x hx => hsorted.left.lt
        (List.mem_append_right _ (mem_weave.2 (Or.inr hx))) (List.mem_append_right _ List.mem_cons_self)
      have hre : ∀ x ∈ f.re, e.key < x.key := fun x hx => hsorted.lt
        (List.mem_append_right _ (List.mem_append_right _ List.mem_cons_self))
        (List.mem_append_left _ (mem_weave.2 (Or.inr hx)))
      refine Prog.Outcome.Ends.bind
        (ends_bsptbk hcap h.spot.index hl hr hlk hrk hlfblk hroom hsize hle hre hE) ?_
      rintro ⟨a,s1⟩ ⟨ha,fs1,hindex,hkeeps,hlf,hstk1,herr,hfree,hreach⟩
      simp only at ha hlf hstk1 herr
      obtain ⟨u,v,stk,hdown⟩ := down_cons p
      have hne : blk ≠ s1.ctx.super.scroot := by
        rw [hkeeps.root, ← h.spot.index.link, link_plug]
        intro heq
        have hnd := ((Path.step f p).ids_plug _).nodup_iff.1 h.spot.index.nodup
        exact (List.nodup_append.1 hnd).2.2 blk List.mem_cons_self _ (Path.top_step_mem f p blk) heq
      have hpull : exec pullParent s1 =
          .done ((), { s1 with ctx.lf := { s.ctx.lf with lfpos := u, lfblk := v }, ctx.stk := stk }) := by
        have h1 : s1.ctx.stk = u :: v :: stk := by rw [hstk1, hstk, hdown]
        rw [exec_pullParent h1, hlf]
      simp only [if_neg (not_lt.2 ha), if_pos hne, hlf, hlfblk]
      rw [hpull, Prog.Outcome.bind_done]
      have hseek := h.split_step hcap hL hl hr hlk hrk hkeeps herr hreach hmode hindex hdown hfree
      refine ih p _ _ fs1 hseek ?_
      have hle := hseek.length_ids
      have hids : (p.plug (f.fillTwo (BTree.node blk l lk) e (BTree.node a r rk))).ids.length =
          (a :: ((Path.step f p).plug (BTree.node blk (l ++ e :: r) (lk ++ rk))).ids).length :=
        (p.ids_plug_cut f).length_eq
      simp only [List.length_cons, turns] at hids hle ⊢
      omega

-- The path stack overflows only below a tree of more than twenty levels.
theorem Seek.refused {c : KeyTree (n + 1)} {p : KeyPath (n + 1) m} (h : Seek s0 s p c fs os b)
    {i : Nat} (hi : i ≤ 1) (hfull : (STKMAX : Int) ≤ ((s.ctx.stk.length + i : Nat) : Int) - 1) :
    Refused s0.ctx.super.scroot (.report "BPUSH" QSTKOF) s.disk := by
  have hlen := congrArg List.length h.stack
  rw [length_down] at hlen
  simp only [List.length_cons] at hlen
  have hm := p.height_eq
  refine Or.inr ⟨⟨_,rfl⟩,m,?_,p.plug c,?_,h.spot.wf,h.spot.index.holds⟩
  · simp only [STKMAX] at hfull
    omega
  · rw [h.spot.index.link, h.spot.keeps.root]

theorem Seek.below {f : KeyFrame n} {c : KeyTree n} {p : KeyPath (n + 1) m} (h : Seek s0 s p (f.fill c) fs os b)
    (hL : Sorted KeyEnt.key b.tree.inorder) (hnf : s.ctx.super.smode = 0 → f.size < ZMXKEY)
    (hle : ∀ x ∈ f.le, x.key < b.key) (hre : ∀ x ∈ f.re, b.key < x.key) {i : Int} (hi : i = framePos f) (ke : KeyEnt)
    (hdepth : s.ctx.stk.length + 1 ≤ STKMAX) :
    Seek s0 { s with
      ctx.stk := s.ctx.lf.lfpos :: s.ctx.lf.lfblk :: s.ctx.stk
      ctx.lf := { s.ctx.lf with lfblk := f.id, lfpos := i }
      ctx.keyent := ke } (Path.step f p) c fs os b := by
  have hfocus := (h.sorted_focus hL).left.right
  rw [Frame.inorder_fill] at hfocus
  refine ⟨h.spot.withCtx rfl rfl rfl rfl rfl,fun hmode => ⟨hnf hmode,h.room hmode⟩,?_,?_,h.lfkey,h.exct,h.draddr,?_,?_⟩
  · simp only [down, hi, h.stack]
  · simp only [List.length_cons]
    omega
  · intro x hx
    rcases List.mem_append.1 hx with hx | hx
    · exact h.before x hx
    · exact Frame.left_lt hfocus.left.left hle x hx
  · intro x hx
    rcases List.mem_append.1 hx with hx | hx
    · exact Frame.lt_right hfocus.right hre x hx
    · exact h.after x hx

omit [Build] in
-- What `bsrhbk` says of a node that does not have the key: the index where the search goes on, and the link there.
theorem exec_bsrhbk_missed {f : KeyFrame n} {c : KeyTree n} (hblk : s.disk.Has f.id) (hloc : o.loc = -1)
    (hshow : (s.disk.block f.id).Shows (f.le ++ f.re) (nodeLinks (f.le ++ f.re) (f.lk ++ c :: f.rk)))
    (hle : ∀ x ∈ f.le, x.key < o.key) (hre : ∀ x ∈ f.re, o.key < x.key) (hn : f.size = 0 → n = 0) :
    ∃ (o' : Srh) (ke : KeyEnt), exec (bsrhbk f.id o) s = .done (o', { s with ctx.keyent := ke }) ∧ o'.key = o.key ∧
      (o'.result < 0 ∧ o'.loc = framePos f ∧ o'.link1 = c.link ∨
        0 < o'.result ∧ o'.loc + 1 = framePos f ∧ o'.link2 = c.link) := by
  rcases eq_or_ne (f.le ++ f.re) [] with hnil | hne
  · have hn0 : (s.disk.block f.id).nkeys = 0 := by rw [hshow.nkeys, hnil]; rfl
    have hsize : f.size = 0 := by rw [Frame.size, ← List.length_append, hnil]; rfl
    obtain rfl := hn hsize
    refine ⟨_,s.ctx.keyent,exec_bsrhbk_empty hblk hloc hn0,rfl,
      Or.inl ⟨show (-1 : Int) < 0 by decide,?_,rfl⟩⟩
    rw [framePos, if_pos hsize]
  · have hpos : framePos f = f.le.length := by
      refine if_neg fun h0 => hne (List.length_eq_zero_iff.1 ?_)
      rw [List.length_append]
      exact h0
    have hlink : (s.disk.block f.id).lnkblk f.le.length = c.link := by
      have hl' := hshow.links
      rw [nodeLinks_of_ne hne, List.map_append, Reads.append_iff, List.length_map, f.hl, zero_add] at hl'
      exact hl'.2.1
    have hsearch := Block.search_absent hshow.keys hne hle hre
    obtain ⟨i,res,hres⟩ : ∃ i res, (s.disk.block f.id).search o.key (s.disk.block f.id).nkeys.toNat 0
      ((s.disk.block f.id).nkeys - 1) (-1) (-1) = (i, res) := ⟨_,_,rfl⟩
    have hres' := hres
    rw [hshow.nkeys, Int.toNat_natCast] at hres'
    rw [hres'] at hsearch
    refine ⟨_,_,exec_bsrhbk_search hblk hloc hres hsearch.1,rfl,?_⟩
    rcases hsearch.2 with ⟨hneg,hi⟩ | ⟨hpos',hi⟩
    · simp only at hneg hi
      exact Or.inl ⟨hneg,hi.trans hpos.symm,by rw [hi]; exact hlink⟩
    · simp only at hpos' hi
      exact Or.inr ⟨hpos',hi.trans hpos.symm,by rw [hi]; exact hlink⟩

theorem ends_loop_search {N : Nat} {c : KeyTree (n + 1)} {p : KeyPath (n + 1) m} (howes : Owes s0 os b Q)
    (h : Seek s0 s p c fs os b) (hL : Sorted KeyEnt.key b.tree.inorder)
    (hnf : ¬ ((Node.ents c).length = ZMXKEY ∧ s.ctx.super.smode = 0)) (ho : o.key = b.key)
    (ih : ∀ (f : KeyFrame n) (c' : KeyTree n) (s' : St) (o' : Srh), o'.key = b.key →
      f.fill c' = c → Seek s0 s' (Path.step f p) c' fs os b →
      (exec (seekLoop N c'.link o') s').Ends (Refused s0.ctx.super.scroot) Q) :
    (exec (seekLoop (N + 1) c.link o) s).Ends (Refused s0.ctx.super.scroot) Q := by
  obtain ⟨blk,es,ks,rfl⟩ := c.eq_node
  obtain ⟨hblk,hshow,hwf⟩ := h.node
  have hnk : ¬ ((s.disk.block blk).nkeys = ZMXKEY ∧ s.ctx.super.smode = 0) := by
    rw [hshow.nkeys]
    exact_mod_cast hnf
  have hnf' : s.ctx.super.smode = 0 → es.length ≠ ZMXKEY := fun hmode heq => hnf ⟨heq,hmode⟩
  rw [link_node]
  simp only [seekLoop, if_neg hblk.ne_null, exec_bind, exec_bgtinf hblk, exec_get,
    Prog.Outcome.bind_done, Block.getInf_ZNKEYS, exec_ite]
  rw [if_neg hnk]
  by_cases hpush : (STKMAX : Int) ≤ s.ctx.stk.length - 1
  · rw [exec_bpush_refused hpush]
    exact h.refused (i := 0) (by omega) (by exact_mod_cast hpush)
  rw [exec_bpush hpush]
  simp only [Prog.Outcome.bind_done]
  by_cases hpush' : (STKMAX : Int) ≤ ((s.ctx.lf.lfblk :: s.ctx.stk).length : Int) - 1
  · rw [exec_bpush_refused hpush']
    exact h.refused (i := 1) (by omega) (by exact_mod_cast hpush')
  rw [exec_bpush hpush']
  simp only [Prog.Outcome.bind_done]
  have hdepth : s.ctx.stk.length + 1 ≤ STKMAX := by
    rw [List.length_cons] at hpush'
    omega
  rcases (h.sorted_node hL).find b.key with ⟨l,e,r,rfl,he,hl,hr⟩ | ⟨l,r,rfl,hl,hr⟩
  · -- the key is in this node
    have hkey : o.key = e.key := ho.trans he.symm
    have hsearch : (s.disk.block blk).search o.key (s.disk.block blk).nkeys.toNat 0
        ((s.disk.block blk).nkeys - 1) (-1) (-1) = ((l.length : Int), 0) := by
      rw [hshow.nkeys, Int.toNat_natCast, hkey]
      exact Block.search_found hshow.keys (by rwa [he]) (by rwa [he])
    have hval : (s.disk.block blk).keyblk l.length = e := by
      have := (Reads.append_iff.1 hshow.keys).2.1
      rwa [zero_add] at this
    rw [exec_bsrhbk_search (s := { s with ctx.stk := s.ctx.lf.lfpos :: s.ctx.lf.lfblk :: s.ctx.stk })
      (o := { o with loc := -1 }) hblk rfl hsearch (by omega)]
    simp only [Prog.Outcome.bind_done, exec_setLf, lt_irrefl, if_false, exec_pure, hval]
    have hlen := congrArg List.length h.stack
    rw [length_down, List.length_cons, List.length_cons] at hlen
    refine howes.found p blk l e r ks _ fs (h.spot.withCtx rfl rfl rfl rfl rfl) he
      ⟨⟨h.lfkey.trans he.symm,rfl,rfl,h.stack,?_⟩,fun hmode => ⟨h.room hmode,hnf' hmode⟩⟩ h.exct h.draddr
    simp only [STKMAX] at hdepth
    omega
  · -- it is below the link between the entries before and after it
    obtain ⟨kl,c',kr,rfl,hkl,hkr⟩ := split_list (hwf.2.2.1.trans (show (l ++ r).length + 1 =
      l.length + (r.length + 1) by rw [List.length_append, Nat.add_assoc]))
    obtain ⟨f,hf⟩ : ∃ f : KeyFrame n, f = ⟨blk,l,kl,r,kr,hkl,hkr⟩ := ⟨_,rfl⟩
    have hfill : BTree.node blk (l ++ r) (kl ++ c' :: kr) = f.fill c' := by rw [hf]; rfl
    rw [hfill] at h hwf
    have hfwf := ((f.wf_fill_iff c').1 hwf).1
    have hsize : f.size = (l ++ r).length := by rw [hf, Frame.size, List.length_append]
    have hn : f.size = 0 → n = 0 := fun h0 => by
      have hlow := hfwf.1
      cases p with
      | root =>
          simp only [Path.floor] at hlow
          split at hlow <;> omega
      | step g q => exact absurd hlow (by rw [h0, Path.floor_step]; omega)
    have hroom : s.ctx.super.smode = 0 → f.size < ZMXKEY := fun hmode => by
      have := hnf' hmode
      have := hfwf.2.1
      omega
    have hle : ∀ x ∈ f.le, x.key < b.key := by rw [hf]; exact hl
    have hre : ∀ x ∈ f.re, b.key < x.key := by rw [hf]; exact hr
    have hid : f.id = blk := by rw [hf]
    obtain ⟨o',ke,hrun,hkey,hgo⟩ := exec_bsrhbk_missed (f := f) (c := c') (o := { o with loc := -1 })
      (s := { s with ctx.stk := s.ctx.lf.lfpos :: s.ctx.lf.lfblk :: s.ctx.stk }) (by rw [hid]; exact hblk) rfl
      (by rw [hf]; exact hshow) (fun x hx => (hle x hx).trans_eq ho.symm) (fun x hx => ho.trans_lt (hre x hx)) hn
    rw [hid] at hrun
    rw [hrun]
    have hbelow := fun {i : Int} (hi : i = framePos f) => h.below hL hroom hle hre hi ke hdepth
    rw [hid] at hbelow
    simp only [Prog.Outcome.bind_done, exec_setLf]
    rcases hgo with ⟨hneg,hloc,hlink⟩ | ⟨hpos,hloc,hlink⟩
    · rw [if_pos hneg, hlink]
      exact ih f c' _ o' (hkey.trans ho) hfill.symm (hbelow hloc)
    · rw [if_neg (not_lt.2 hpos.le), if_pos hpos, hlink]
      exact ih f c' _ o' (hkey.trans ho) hfill.symm (hbelow hloc)

-- The loop finds the place of a key, whatever it has to split on its way.
theorem ends_seekLoop (hcap : 3 ≤ ZMXKEY) (howes : Owes s0 os b Q) (hL : Sorted KeyEnt.key b.tree.inorder)
    (N : Nat) {n m : Nat} (p : KeyPath n m) (c : KeyTree n) (s : St) (fs : List Int) (o : Srh)
    (h : Seek s0 s p c fs os b) (ho : o.key = b.key) (hN : turns b (p.plug c).ids.length n ≤ N) :
    (exec (seekLoop N c.link o) s).Ends (Refused s0.ctx.super.scroot) Q := by
  induction N generalizing n m p c s fs o with
  | zero => simp [turns] at hN
  | succ N ih =>
      cases n with
      | zero =>
          cases p with
          | root => exact absurd h.spot.pos (lt_irrefl 0)
          | step f p =>
              have hstk := h.stack
              simp only [down, List.cons.injEq] at hstk
              obtain ⟨hpos,hblk,hstk⟩ := hstk
              have hlf : s.ctx.lf = ⟨b.key,f.id,framePos f,false,ZNULL⟩ := by
                rw [← h.lfkey, ← hpos, ← hblk, ← h.exct, ← h.draddr]
              exact howes.missed f p s fs o.val h.spot
                ⟨hlf,hstk,h.before,h.after,fun hmode => (h.room hmode).1⟩
      | succ n =>
          by_cases hfull : (Node.ents c).length = ZMXKEY ∧ s.ctx.super.smode = 0
          · refine ends_loop_split hcap h hL hfull.2 hfull.1 fun p' c' s' fs' h' hlt => ?_
            exact ih p' c' s' fs' o h' ho (by omega)
          · refine ends_loop_search howes h hL hfull ho fun f c' s' o' ho' hfill h' => ?_
            refine ih _ c' s' fs o' h' ho' ?_
            rw [Path.plug_step, hfill]
            simp only [turns] at hN ⊢
            omega

end Turns

omit [Build] in
theorem turns_le {t : KeyTree n} {cap : Nat} (h : t.RootWf cap) : turns ⟨t,fs,k⟩ t.ids.length n ≤ 2 * t.inorder.length + 3 := by
  have h1 := BTree.height_le_length_ids h
  have h2 := BTree.length_ids_le_succ h
  simp only [turns]
  omega

-- The search for `k` from the root.
theorem ends_seek {t : KeyTree n} (hcap : 3 ≤ ZMXKEY) (hn : 0 < n) (h : Index s t fs os) (hwf : t.RootWf ZMXKEY)
    (hL : Sorted KeyEnt.key t.inorder) (hfuel : 2 * t.inorder.length + 3 ≤ FUEL) (hstk : s.ctx.stk = [])
    (hlf : s.ctx.lf = ⟨k,ZNULL,ZNULL,false,ZNULL⟩) (howes : Owes s os ⟨t,fs,k⟩ Q) :
    (exec (seekLoop FUEL s.ctx.super.scroot { key := k }) s).Ends (Refused s.ctx.super.scroot) Q := by
  have hseek : Seek s s Path.root t fs os ⟨t,fs,k⟩ := by
    refine ⟨⟨h,hwf,rfl,.refl s os,rfl,hn,fun _ hc => hc,fun _ hr => hr,.refl _⟩,fun _ => trivial,?_,?_,?_,?_,?_,by simp,by simp⟩
    · rw [hlf, hstk]
      rfl
    · rw [hstk]
      exact Nat.zero_le _
    all_goals rw [hlf]
  have hloop := ends_seekLoop hcap howes hL FUEL Path.root t s fs { key := k } hseek rfl ((turns_le hwf).trans hfuel)
  rwa [h.link] at hloop

end Loop

end Btlib
