import Btlib.Index.Moves
import Btlib.Index.Refine
import Btlib.Source.Roots
import Btlib.Theory.RoseTree

namespace Btlib

open RoseTree

abbrev BlockTree (n : Nat) : Type := RoseTree Int n

abbrev BlockTrail (n m : Nat) : Type := Trail Int n m

-- What a walk through the blocks reads of one of them.
structure Disk.SameAt (d d' : Disk) (blk : Int) : Prop where
  has : d.Has blk → d'.Has blk
  nkeys : (d'.block blk).nkeys = (d.block blk).nkeys
  lnkblk : (d'.block blk).lnkblk = (d.block blk).lnkblk

-- The blocks of a tree are there, linked to their children; the first link of a leaf leads nowhere.
def Planted (d : Disk) : {n : Nat} → BlockTree n → Prop
  | 0, t => t.elim
  | _ + 1, t =>
      d.Has t.1 ∧ 0 ≤ (d.block t.1).nkeys ∧ (t.2 = [] → (d.block t.1).lnkblk 0 = ZNULL) ∧
        (t.2 ≠ [] → (d.block t.1).nkeys + 1 = t.2.length ∧ Reads (d.block t.1).lnkblk 0 (t.2.map label)) ∧
        ∀ k ∈ t.2, Planted d k

-- The same of the blocks above, and of what is behind in them.
def TrailPlanted (d : Disk) : {n m : Nat} → BlockTrail n m → Prop
  | _, _, .top => True
  | _, _, .step blk pos rest up =>
      d.Has blk ∧ (d.block blk).nkeys = pos + rest.length ∧
        Reads (d.block blk).lnkblk ((pos : Int) + 1) (rest.map label) ∧ (∀ k ∈ rest, Planted d k) ∧ TrailPlanted d up

-- The stack under a block with `p` above it.
def trailStk : {n m : Nat} → BlockTrail n m → List Int
  | _, _, .top => [-1,-1]
  | _, _, .step blk pos _ up => (pos : Int) :: blk :: trailStk up

variable {n m : Nat} {d d' : Disk} {t : BlockTree n} {p : BlockTrail n m} {blk : Int} {ks : List (BlockTree n)}

theorem planted_node : Planted d (node blk ks) ↔
    d.Has blk ∧ 0 ≤ (d.block blk).nkeys ∧ (ks = [] → (d.block blk).lnkblk 0 = ZNULL) ∧
      (ks ≠ [] → (d.block blk).nkeys + 1 = ks.length ∧ Reads (d.block blk).lnkblk 0 (ks.map label)) ∧
      ∀ k ∈ ks, Planted d k := Iff.rfl

theorem trailPlanted_step {i : Nat} {rest : List (BlockTree n)} {up : BlockTrail (n + 1) m} :
    TrailPlanted d (.step blk i rest up) ↔
      d.Has blk ∧ (d.block blk).nkeys = i + rest.length ∧
        Reads (d.block blk).lnkblk ((i : Int) + 1) (rest.map label) ∧ (∀ k ∈ rest, Planted d k) ∧ TrailPlanted d up :=
  Iff.rfl

theorem Planted.congr (h : Planted d t) (hd : ∀ b ∈ t.post, d.SameAt d' b) : Planted d' t := by
  induction n with
  | zero => exact t.elim
  | succ n ih =>
      obtain ⟨blk,ks,rfl⟩ := t.eq_node
      obtain ⟨hhas,h0,hleaf,hkids,hks⟩ := planted_node.1 h
      have hb := hd blk (by simp)
      refine planted_node.2 ⟨hb.has hhas,by rwa [hb.nkeys],by rwa [hb.lnkblk],by rwa [hb.nkeys, hb.lnkblk],fun k hk => ?_⟩
      refine ih (hks k hk) fun b hbk => hd b ?_
      rw [post_node]
      exact List.mem_append_left _ (List.mem_flatten.2 ⟨_,List.mem_map_of_mem hk,hbk⟩)

theorem TrailPlanted.congr (h : TrailPlanted d p) (hd : ∀ b ∈ p.todo, d.SameAt d' b) : TrailPlanted d' p := by
  induction p with
  | top => trivial
  | step blk pos rest up ih =>
      obtain ⟨hhas,hkeys,hlinks,hrest,hup⟩ := h
      rw [Trail.todo_step] at hd
      have hb := hd blk (List.mem_append_right _ List.mem_cons_self)
      refine ⟨hb.has hhas,by rwa [hb.nkeys],by rwa [hb.lnkblk],fun k hk => (hrest k hk).congr fun b hbk => hd b ?_,
        ih hup fun b hbu => hd b (List.mem_append_right _ (List.mem_cons_of_mem _ hbu))⟩
      exact List.mem_append_left _ (List.mem_flatten.2 ⟨_,List.mem_map_of_mem hk,hbk⟩)

theorem Planted.has (h : Planted d t) : d.Has t.label := by
  cases n with
  | zero => exact t.elim
  | succ n => exact h.1

theorem Planted.at_post (h : Planted d t) {b : Int} (hb : b ∈ t.post) : d.Has b ∧ 0 ≤ (d.block b).nkeys := by
  induction n with
  | zero => exact t.elim
  | succ n ih =>
      obtain ⟨blk,ks,rfl⟩ := t.eq_node
      obtain ⟨hhas,h0,-,-,hks⟩ := planted_node.1 h
      rcases List.mem_append.1 hb with hb | hb
      · obtain ⟨l,hl,hbl⟩ := List.mem_flatten.1 hb
        obtain ⟨k,hk,rfl⟩ := List.mem_map.1 hl
        exact ih (hks k hk) hbl
      · rw [List.mem_singleton.1 hb]
        exact ⟨hhas,h0⟩

theorem length_trailStk (p : BlockTrail n m) : (trailStk p).length = 2 * p.depth + 2 := by
  induction p with
  | top => rfl
  | step blk pos rest up ih =>
      simp only [trailStk, List.length_cons, ih, Trail.depth]
      omega

variable [Build] {s : St}

-- Where the walk stands.
structure Sits (s : St) (blk pos : Int) (stk : List Int) : Prop where
  blk : s.ctx.lf.lfblk = blk
  pos : s.ctx.lf.lfpos = pos
  stk : s.ctx.stk = stk

-- What the walk changes.
structure Strolls (s s' : St) : Prop where
  disk : s'.disk = s.disk
  super : s'.ctx.super = s.ctx.super
  err : s'.ctx.err = s.ctx.err

omit [Build] in
theorem Strolls.refl (s : St) : Strolls s s := ⟨rfl,rfl,rfl⟩

omit [Build] in
theorem Strolls.trans {s s' s'' : St} (h : Strolls s s') (h' : Strolls s' s'') : Strolls s s'' :=
  ⟨h'.disk.trans h.disk,h'.super.trans h.super,h'.err.trans h.err⟩

-- A turn of `bleaf` that goes down to the child `t`.
theorem exec_bleafLoop_enter {pos : Int} {stk : List Int} (hs : Sits s blk pos stk)
    (hlink : (s.disk.block blk).lnkblk pos = t.label) (ht : Planted s.disk t) (hstk : stk.length ≤ 38) (N : Nat) :
    exec (bleafLoop 0 (N + 1) (s.disk.block blk)) s = exec (bleafLoop 0 N (s.disk.block t.label)) { s with
      ctx.stk := pos :: blk :: stk
      ctx.lf := { s.ctx.lf with lfblk := t.label, lfpos := 0 } } := by
  have hlen := hs.stk ▸ hstk
  simp only [bleafLoop, exec_bind, exec_get, Prog.Outcome.bind_done, exec_ite, hs.pos]
  rw [hlink, if_neg ht.has.ne_null, exec_bpush (by simp only [STKMAX]; omega), Prog.Outcome.bind_done,
    exec_bpush (by simp only [STKMAX, List.length_cons]; omega), Prog.Outcome.bind_done]
  simp only [exec_setLf, Prog.Outcome.bind_done, exec_brdblk, Disk.read_eq ht.has, if_true, exec_bind]
  rw [hs.blk, hs.stk]

-- From the first position of a node `bleaf` goes to the leftmost leaf below it.
theorem exec_bleafLoop_first {m : Nat} (hm : m ≤ 20) (N : Nat) {n : Nat} (t : BlockTree n) (p : BlockTrail n m)
    (s : St) (ht : Planted s.disk t) (hp : TrailPlanted s.disk p) (hs : Sits s t.label 0 (trailStk p)) (hN : n ≤ N) :
    ∃ (k : Nat) (q : BlockTrail k m) (leaf : Int) (s' : St),
      exec (bleafLoop 0 N (s.disk.block t.label)) s = .done (some (s.disk.block leaf), s') ∧ Strolls s s' ∧
        Sits s' leaf 0 (trailStk q) ∧ TrailPlanted s.disk q ∧ s.disk.Has leaf ∧ 0 ≤ (s.disk.block leaf).nkeys ∧
          (s.disk.block leaf).lnkblk 0 = ZNULL ∧ t.postAt p.depth ++ p.plan = (leaf, q.depth) :: q.plan := by
  induction n generalizing N s with
  | zero => exact t.elim
  | succ n ih =>
      obtain ⟨N,rfl⟩ : ∃ N', N = N' + 1 := ⟨N - 1,by omega⟩
      obtain ⟨blk,ks,rfl⟩ := t.eq_node
      obtain ⟨hhas,h0,hleaf,hkids,hks⟩ := planted_node.1 ht
      rw [label_node] at hs ⊢
      cases ks with
      | nil =>
          simp only [bleafLoop, exec_bind, exec_get, Prog.Outcome.bind_done, exec_ite, hs.pos]
          rw [if_pos (hleaf rfl)]
          exact ⟨_,p,blk,s,rfl,.refl s,hs,hp,hhas,h0,hleaf rfl,by simp⟩
      | cons k ks =>
          obtain ⟨hlen,hlinks⟩ := hkids (by simp)
          have hk := hks k List.mem_cons_self
          have hdepth := p.depth_add
          have hstk : (trailStk p).length ≤ 38 := by
            rw [length_trailStk]
            cases n with
            | zero => exact k.elim
            | succ n => omega
          rw [exec_bleafLoop_enter hs hlinks.1 hk hstk]
          obtain ⟨j,q,leaf,s',hexec,hstroll,hsits,hq,hleaf⟩ := ih N k (.step blk 0 ks p)
            { s with
              ctx.stk := 0 :: blk :: trailStk p
              ctx.lf := { s.ctx.lf with lfblk := k.label, lfpos := 0 } } hk
            ⟨hhas,by
              rw [List.length_cons] at hlen
              push_cast at hlen ⊢
              omega,hlinks.2,fun k' hk' => hks k' (List.mem_cons_of_mem _ hk'),hp⟩ ⟨rfl,rfl,rfl⟩ (by omega)
          refine ⟨j,q,leaf,s',hexec,⟨hstroll.disk,hstroll.super,hstroll.err⟩,hsits,hq,hleaf.1,hleaf.2.1,hleaf.2.2.1,?_⟩
          rw [← hleaf.2.2.2]
          simp [Trail.plan]

-- Where the walk stands between two calls.
def Waits (s : St) : {n m : Nat} → BlockTrail n m → Prop
  | _, _, .top => Sits s (-1) 0 []
  | _, _, .step blk pos _ up => Sits s blk ((pos : Int) + 1) (trailStk up)

omit [Build] in
theorem Waits.same {s' : St} {k : Nat} {q : BlockTrail k m} (h : Waits s q) (hlf : s'.ctx.lf = s.ctx.lf)
    (hstk : s'.ctx.stk = s.ctx.stk) : Waits s' q := by
  cases q with
  | top => exact ⟨by rw [hlf, h.blk],by rw [hlf, h.pos],by rw [hstk, h.stk]⟩
  | step blk i rest up => exact ⟨by rw [hlf, h.blk],by rw [hlf, h.pos],by rw [hstk, h.stk]⟩

theorem exec_bnxtbkLoop_leave {pos : Int} (hs : Sits s blk pos (trailStk p)) (hhas : s.disk.Has blk)
    (hpos : (s.disk.block blk).nkeys < pos) (N : Nat) (last : Int) :
    ∃ s', exec (bnxtbkLoop (N + 1) last) s = .done (blk, s') ∧ Strolls s s' ∧ Waits s' p := by
  have hexec : ∀ u v stk, s.ctx.stk = u :: v :: stk → exec (bnxtbkLoop (N + 1) last) s = .done (blk, { s with
      ctx.stk := stk
      ctx.lf := { s.ctx.lf with lfblk := v, lfpos := u + 1 } }) := by
    intro u v stk hstk
    simp only [bnxtbkLoop, exec_bind, exec_get, Prog.Outcome.bind_done, exec_ite, hs.blk, if_pos hhas.1, exec_brdblk,
      Disk.read_eq hhas, exec_bgtinf hhas, Block.getInf_ZNKEYS, hs.pos, if_pos hpos, exec_pullParent hstk, setPos,
      exec_setLf, exec_pure]
  cases p with
  | top => exact ⟨_,hexec _ _ _ hs.stk,⟨rfl,rfl,rfl⟩,⟨rfl,rfl,rfl⟩⟩
  | step b i rest up => exact ⟨_,hexec _ _ _ hs.stk,⟨rfl,rfl,rfl⟩,⟨rfl,rfl,rfl⟩⟩

-- A turn in which `bleaf` comes to a leaf, which is returned in the next.
theorem exec_bnxtbkLoop_leaf {leaf pos : Int} {s' : St} {stk : List Int} {b : Option Block} (hs : Sits s blk pos stk)
    (hhas : s.disk.Has blk) (hpos : pos ≤ (s.disk.block blk).nkeys) (hexec : exec (bleaf 0) s = .done (b, s'))
    (hsits : Sits s' leaf 0 (trailStk p)) (hleaf : s'.disk.Has leaf) (N : Nat) (last : Int) :
    ∃ s'', exec (bnxtbkLoop (N + 2) last) s = .done (leaf, s'') ∧ Strolls s' s'' ∧ Waits s'' p := by
  have hturn : exec (bnxtbkLoop (N + 2) last) s = exec (bnxtbkLoop (N + 1) last)
      { s' with ctx.lf := { s'.ctx.lf with lfpos := (s'.disk.block leaf).nkeys + 2 } } := by
    rw [bnxtbkLoop]
    simp only [exec_bind, exec_get, Prog.Outcome.bind_done, exec_ite, hs.blk, if_pos hhas.1, exec_brdblk,
      Disk.read_eq hhas, exec_bgtinf hhas, Block.getInf_ZNKEYS, hs.pos, if_neg (not_lt.2 hpos), hexec, hsits.blk,
      exec_bgtinf hleaf, setPos, exec_setLf]
  obtain ⟨s'',hdone,hstroll,hwaits⟩ := exec_bnxtbkLoop_leave (s := { s' with
    ctx.lf := { s'.ctx.lf with lfpos := (s'.disk.block leaf).nkeys + 2 } }) (p := p) ⟨hsits.blk,rfl,hsits.stk⟩ hleaf
    (by dsimp only; omega) N last
  exact ⟨s'',hturn.trans hdone,⟨hstroll.disk,hstroll.super,hstroll.err⟩,hwaits⟩

theorem exec_bnxtbk_next (hm : m ≤ 20) (hfuel : 20 ≤ FUEL) {i : Nat} {rest : List (BlockTree n)}
    {up : BlockTrail (n + 1) m} (hw : Waits s (.step blk i rest up)) (hp : TrailPlanted s.disk (.step blk i rest up))
    {last : Int} (hlast : last ≠ ZNULL) :
    ∃ (k : Nat) (q : BlockTrail k m) (x : Int) (s' : St), exec (bnxtbk last) s = .done (x, s') ∧ Strolls s s' ∧
      Waits s' q ∧ TrailPlanted s.disk q ∧ (Trail.step blk i rest up).plan = (x, q.depth) :: q.plan := by
  obtain ⟨hhas,hkeys,hlinks,hrest,hup⟩ := hp
  obtain ⟨N,hN⟩ : ∃ N, FUEL = N + 2 := ⟨FUEL - 2,by omega⟩
  have hcall : exec (bnxtbk last) s = exec (bnxtbkLoop (N + 2) last) s := by
    rw [bnxtbk, if_neg hlast, hN]
  rw [hcall]
  cases rest with
  | nil =>
      obtain ⟨s',hdone,hstroll,hwaits⟩ := exec_bnxtbkLoop_leave hw hhas (by
        rw [hkeys, List.length_nil]
        omega) (N + 1) last
      exact ⟨_,up,blk,s',hdone,hstroll,hwaits,hup,by simp⟩
  | cons t rest =>
      rw [List.length_cons] at hkeys
      push_cast at hkeys
      have ht := hrest t List.mem_cons_self
      have hdepth := up.depth_add
      obtain ⟨n,rfl⟩ : ∃ n', n = n' + 1 := by
        cases n with
        | zero => exact t.elim
        | succ n => exact ⟨n,rfl⟩
      have hstk : (trailStk up).length ≤ 38 := by
        rw [length_trailStk]
        omega
      obtain ⟨M,hM⟩ : ∃ M, FUEL = M + 1 := ⟨FUEL - 1,by omega⟩
      have hbleaf : exec (bleaf 0) s = exec (bleafLoop 0 M (s.disk.block t.label)) { s with
          ctx.stk := ((i : Int) + 1) :: blk :: trailStk up
          ctx.lf := { s.ctx.lf with lfblk := t.label, lfpos := 0 } } := by
        rw [← exec_bleafLoop_enter hw hlinks.1 ht hstk M, bleaf]
        simp only [exec_bind, exec_get, Prog.Outcome.bind_done, hw.blk, exec_brdblk, Disk.read_eq hhas, exec_bgtinf hhas,
          Block.getInf_ZNKEYS, exec_ite]
        rw [if_neg (by omega), hM]
      obtain ⟨k,q,leaf,s1,hexec,hstroll,hsits,hq,hleaf,-,-,htodo⟩ := exec_bleafLoop_first hm M t
        (.step blk (i + 1) rest up) { s with
          ctx.stk := ((i : Int) + 1) :: blk :: trailStk up
          ctx.lf := { s.ctx.lf with lfblk := t.label, lfpos := 0 } } ht
        (trailPlanted_step.2 ⟨hhas,by
          push_cast
          omega,by
          push_cast
          exact hlinks.2,fun k hk => hrest k (List.mem_cons_of_mem _ hk),hup⟩)
        ⟨rfl,rfl,by
          push_cast
          rfl⟩ (by omega)
      obtain ⟨s2,hdone,hstroll',hwaits⟩ := exec_bnxtbkLoop_leaf hw hhas (by omega) (hbleaf.trans hexec) hsits
        (by rwa [hstroll.disk]) N last
      refine ⟨k,q,leaf,s2,hdone,Strolls.trans ⟨hstroll.disk,hstroll.super,hstroll.err⟩ hstroll',hwaits,hq,?_⟩
      simpa using htodo

-- The root has its children linked, or is empty and has none.
structure PlantedRoot (d : Disk) (t : BlockTree (m + 1)) : Prop where
  has : d.Has t.1
  keys : t.2 = [] → 0 ≤ (d.block t.1).nkeys ∧ ((d.block t.1).nkeys = 0 ∨ (d.block t.1).lnkblk 0 = ZNULL)
  kids : t.2 ≠ [] → 0 < (d.block t.1).nkeys ∧ (d.block t.1).nkeys + 1 = t.2.length ∧
    Reads (d.block t.1).lnkblk 0 (t.2.map label)
  planted : ∀ k ∈ t.2, Planted d k

omit [Build] in
theorem PlantedRoot.nonneg {t : BlockTree (m + 1)} (h : PlantedRoot d t) : 0 ≤ (d.block t.1).nkeys := by
  rcases eq_or_ne t.2 [] with hnil | hne
  · exact (h.keys hnil).1
  · exact (h.kids hne).1.le

omit [Build] in
theorem PlantedRoot.at_post {t : BlockTree (m + 1)} (h : PlantedRoot d t) {b : Int} (hb : b ∈ t.post) :
    d.Has b ∧ 0 ≤ (d.block b).nkeys := by
  obtain ⟨root,ks,rfl⟩ := t.eq_node
  rcases List.mem_append.1 hb with hb | hb
  · obtain ⟨l,hl,hbl⟩ := List.mem_flatten.1 hb
    obtain ⟨k,hk,rfl⟩ := List.mem_map.1 hl
    exact (h.planted k hk).at_post hbl
  · rw [List.mem_singleton.1 hb]
    exact ⟨h.has,h.nonneg⟩

omit [Build] in
theorem PlantedRoot.whole {t : BlockTree (m + 1)} (h : PlantedRoot d t) (hpos : 0 < (d.block t.1).nkeys) :
    Planted d t := by
  obtain ⟨root,ks,rfl⟩ := t.eq_node
  exact planted_node.2 ⟨h.has,h.nonneg,fun hnil => (h.keys hnil).2.resolve_left hpos.ne',
    fun hne => (h.kids hne).2,h.planted⟩

theorem exec_bnxtbk_first (hm : m + 1 ≤ 20) (hfuel : 20 ≤ FUEL) {t : BlockTree (m + 1)} (ht : PlantedRoot s.disk t)
    (hroot : s.ctx.super.scroot = t.label) :
    ∃ (k : Nat) (q : BlockTrail k (m + 1)) (x : Int) (s' : St), exec (bnxtbk ZNULL) s = .done (x, s') ∧ Strolls s s' ∧
      Waits s' q ∧ TrailPlanted s.disk q ∧ t.postAt 0 = (x, q.depth) :: q.plan := by
  obtain ⟨N,hN⟩ : ∃ N, FUEL = N + 2 := ⟨FUEL - 2,by omega⟩
  obtain ⟨root,ks,rfl⟩ := t.eq_node
  rw [label_node] at hroot
  have hhas : s.disk.Has root := ht.has
  set s1 : St := { s with
    ctx.stk := [-1,-1]
    ctx.lf := { s.ctx.lf with lfblk := root, lfpos := 0 } } with hs1
  have hbegin : exec (bnxtbk ZNULL) s =
      (exec (bleaf 0) s1).bind fun r => exec (bnxtbkLoop (N + 2) ZNULL) r.2 := by
    rw [bnxtbk, if_pos rfl, bnxtbkStart, hN]
    simp only [bstkin, exec_bind, exec_setStk, Prog.Outcome.bind_done]
    rw [exec_bpush (by simp only [STKMAX, List.length_nil]; decide), Prog.Outcome.bind_done,
      exec_bpush (by simp only [STKMAX, List.length_singleton]; decide), Prog.Outcome.bind_done]
    simp only [exec_get, Prog.Outcome.bind_done, exec_setLf, hroot]
    rw [Prog.Outcome.bind_assoc]
    rfl
  have hfin : ∀ {k : Nat} {q : BlockTrail k (m + 1)} {leaf : Int} {s2 : St} {b : Option Block},
      exec (bleaf 0) s1 = .done (b, s2) → Strolls s1 s2 → Sits s2 leaf 0 (trailStk q) → s.disk.Has leaf →
      0 ≤ (s.disk.block leaf).nkeys → ((s.disk.block leaf).nkeys = 0 ∨ (s.disk.block leaf).lnkblk 0 = ZNULL) →
      ∃ s', exec (bnxtbk ZNULL) s = .done (leaf, s') ∧ Strolls s s' ∧ Waits s' q := by
    intro k q leaf s2 b hexec hstroll hsits hleaf h0 hend
    have hdisk : s2.disk = s.disk := hstroll.disk
    have hstays : exec (bleaf 0) s2 = .done (some (s2.disk.block leaf), s2) := by
      rw [← hsits.blk]
      refine exec_bleaf_stays ?_ (by omega) ?_
      · rwa [hsits.blk, hdisk]
      · rwa [hsits.blk, hsits.pos, hdisk]
    obtain ⟨s',hdone,hstroll',hwaits⟩ := exec_bnxtbkLoop_leaf hsits (by rwa [hdisk]) (by rwa [hdisk]) hstays hsits
      (by rwa [hdisk]) N ZNULL
    exact ⟨s',by rw [hbegin, hexec]; exact hdone,
      Strolls.trans ⟨hstroll.disk,hstroll.super,hstroll.err⟩ hstroll',hwaits⟩
  cases ks with
  | nil =>
      obtain ⟨h0,hend⟩ := ht.keys rfl
      have hstays : exec (bleaf 0) s1 = .done (some (s1.disk.block root), s1) :=
        exec_bleaf_stays (s := s1) hhas (by omega) hend
      obtain ⟨s',hdone,hstroll,hwaits⟩ := hfin (q := .top) hstays (.refl s1) ⟨rfl,rfl,rfl⟩ hhas h0 hend
      exact ⟨_,.top,root,s',hdone,hstroll,hwaits,trivial,rfl⟩
  | cons k ks =>
      obtain ⟨hpos,hlen,hlinks⟩ := ht.kids (by simp [node])
      have hwhole : Planted s1.disk (node root (k :: ks)) := ht.whole hpos
      obtain ⟨j,q,leaf,s2,hexec,hstroll,hsits,hq,hleaf,h0,hend,htodo⟩ := exec_bleafLoop_first hm FUEL
        (node root (k :: ks)) .top s1 hwhole trivial ⟨rfl,rfl,rfl⟩ (by omega)
      have hbleaf : exec (bleaf 0) s1 = exec (bleafLoop 0 FUEL (s1.disk.block root)) s1 := by
        have hlf : s1.ctx.lf.lfblk = root := rfl
        have hhas1 : s1.disk.Has root := hhas
        rw [bleaf]
        simp only [exec_bind, exec_get, Prog.Outcome.bind_done, exec_brdblk, hlf, Disk.read_eq hhas1, exec_bgtinf hhas1,
          Block.getInf_ZNKEYS, exec_ite]
        exact if_neg hpos.ne'
      obtain ⟨s',hdone,hstroll',hwaits⟩ := hfin (hbleaf.trans hexec) hstroll hsits hleaf h0 (Or.inr hend)
      exact ⟨j,q,leaf,s',hdone,hstroll',hwaits,hq,by
        rw [← htodo]
        simp⟩

-- A root of one key over two leaves, each of one key.
def threeBlocks : St :=
  { St.fresh with
    disk := ⟨fun b => { Block.blank with
      btype := if b = 1 then ZROOT else ZINUSE, nkeys := 1, keyblk := fun _ => ⟨[65],7,ZNULL⟩,
      lnkblk := fun i => if b = 1 then i + 2 else ZNULL },4⟩ }

def threeTree : BlockTree 2 := node 1 [node 2 [],node 3 []]

omit [Build] in
theorem planted_three : PlantedRoot threeBlocks.disk threeTree := by
  have hhas : ∀ b : Int, b = 2 ∨ b = 3 ∨ b = 1 → threeBlocks.disk.Has b := by
    rintro b (rfl | rfl | rfl) <;> exact ⟨by decide,by decide⟩
  have hleaf : ∀ b : Int, b = 2 ∨ b = 3 → Planted threeBlocks.disk (node b [] : BlockTree 1) := by
    rintro b (rfl | rfl) <;>
      exact planted_node.2 ⟨hhas _ (by simp),by decide,fun _ => rfl,fun hc => absurd rfl hc,
        fun k hk => absurd hk List.not_mem_nil⟩
  refine ⟨hhas 1 (by simp),fun hc => by simp [threeTree, node] at hc,fun _ => ⟨by decide,by decide,rfl,rfl,trivial⟩,
    fun k hk => ?_⟩
  rcases List.mem_cons.1 hk with rfl | hk
  · exact hleaf 2 (by simp)
  · rw [List.mem_singleton.1 hk]
    exact hleaf 3 (by simp)

end Btlib
