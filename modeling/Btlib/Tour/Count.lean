import Btlib.Dups.Runs
import Btlib.Source.Files
import Btlib.Theory.Links
import Btlib.Tour.Steps

namespace Btlib

open RoseTree

-- What the walk of `btkeys` knows of how deep the leaves are that it has seen.
structure Level (ds : List Nat) (leaf_depth : Int) (balanced : Bool) : Prop where
  none : ds = [] → leaf_depth = -1
  seen : ds ≠ [] → ∃ d ∈ ds, (d : Int) = leaf_depth
  even : balanced = true ↔ ∀ d ∈ ds, (d : Int) = leaf_depth

theorem Level.nil : Level [] (-1) true := ⟨fun _ => rfl,fun h => absurd rfl h,by simp⟩

-- One more leaf, as `btkeys` takes it in.
theorem Level.snoc {ds : List Nat} {ld : Int} {b : Bool} (h : Level ds ld b) (d : Nat) :
    Level (ds ++ [d]) (if ld < 0 then (d : Int) else if ld ≠ d then max ld d else ld)
      (if ld < 0 then b else if ld ≠ d then false else b) := by
  have hne : ds ++ [d] ≠ [] := by simp
  rcases eq_or_ne ds [] with rfl | hds
  · have hld := h.none rfl
    have hb : b = true := h.even.2 (by simp)
    subst hld hb
    exact ⟨fun hc => absurd hc hne,fun _ => ⟨d,by simp,by simp⟩,by simp⟩
  · obtain ⟨e,he,rfl⟩ := h.seen hds
    have hneg : ¬ (e : Int) < 0 := by omega
    rw [if_neg hneg, if_neg hneg]
    by_cases hed : (e : Int) = d
    · rw [if_neg (not_not.2 hed), if_neg (not_not.2 hed)]
      refine ⟨fun hc => absurd hc hne,fun _ => ⟨e,List.mem_append_left _ he,rfl⟩,h.even.trans ?_⟩
      rw [List.forall_mem_append, List.forall_mem_singleton, hed]
      exact (and_iff_left rfl).symm
    · rw [if_pos hed, if_pos hed]
      refine ⟨fun hc => absurd hc hne,fun _ => ?_,?_⟩
      · rcases le_total (e : Int) d with hle | hle
        · exact ⟨d,by simp,(max_eq_right hle).symm⟩
        · exact ⟨e,by simp [he],(max_eq_left hle).symm⟩
      · simp only [Bool.false_eq_true, false_iff]
        intro hall
        have h1 := hall e (by simp [he])
        have h2 := hall d (by simp)
        omega

theorem Level.balanced_iff {ds : List Nat} {ld : Int} {b : Bool} (h : Level ds ld b) :
    b = true ↔ ∀ d ∈ ds, ∀ e ∈ ds, d = e := by
  rw [h.even]
  constructor
  · intro hall d hd e he
    have := (hall d hd).trans (hall e he).symm
    omega
  · intro hall d hd
    obtain ⟨e,he,rfl⟩ := h.seen (List.ne_nil_of_mem hd)
    rw [hall d hd e he]

section Count

variable [Build]

-- An entry in a block of duplicates at the address `a`.
def DupAt (d : Disk) (a : Int) (dkey : DKey) : Prop :=
  ∃ blk off : Int, a = blk * ZBLKSZ + off ∧ d.Has blk ∧ 0 < blk ∧ 0 ≤ off ∧ off < ZBLKSZ ∧
    (d.block blk).btype = ZDUP ∧ (d.block blk).Ent off dkey ∧ dkey.Fits

-- How many entries a key stands for: one, or those of the chain of its duplicates.
def Weighs (d : Disk) (ke : KeyEnt) (n : Nat) : Prop :=
  if ke.dup = ZNULL then n = 1
  else ∃ ds, ds.length = n ∧ n < FUEL ∧ Links.Walk (fun a dkey b => DupAt d a dkey ∧ dkey.flink = b) ZNULL ke.val ds

variable {s : St} {blk : Int} {ds : List DKey} {ke : KeyEnt} {k : Nat} {w : KeyEnt → Nat}

theorem exec_btcntdups (hz : Sized) {a : Int} (N : Nat) (count : Int)
    (h : Links.Walk (fun a dkey b => DupAt s.disk a dkey ∧ dkey.flink = b) ZNULL a ds) (hN : ds.length < N) :
    exec (btcntdups N a count) s = .done (count + ds.length, s) := by
  induction ds generalizing a N count with
  | nil =>
      obtain ⟨N,rfl⟩ : ∃ N', N = N' + 1 := ⟨N - 1,by omega⟩
      have ha : a = ZNULL := h
      simp [btcntdups, ha]
  | cons dkey ds ih =>
      obtain ⟨N,rfl⟩ : ∃ N', N = N' + 1 := ⟨N - 1,by omega⟩
      obtain ⟨b,⟨⟨blk,off,rfl,hhas,hpos,h0,h1,htype,hent,hfits⟩,rfl⟩,hrest⟩ := h
      have hne : blk * (ZBLKSZ : Int) + off ≠ ZNULL := by
        have := Int.mul_pos hpos (Int.natCast_pos.2 ZBLKSZ_pos)
        change blk * (ZBLKSZ : Int) + off ≠ -1
        omega
      rw [List.length_cons] at hN
      rw [btcntdups, if_neg hne, exec_bind, exec_getdkey hz hhas hpos h0 h1 htype hent hfits, Prog.Outcome.bind_done]
      dsimp only
      rw [ih N (count + 1) hrest (by omega), List.length_cons]
      push_cast
      rw [add_assoc, add_comm (1 : Int)]

-- The entries of a block, each duplicate by itself.
def blockCount (d : Disk) (w : KeyEnt → Nat) (blk : Int) : Nat :=
  ((List.range (d.block blk).nkeys.toNat).map fun i : Nat => w ((d.block blk).keyblk i)).sum

-- Every entry of the block stands for as many as `w` says.
def Weighed (d : Disk) (w : KeyEnt → Nat) (blk : Int) : Prop :=
  ∀ i : Nat, (i : Int) < (d.block blk).nkeys → Weighs d ((d.block blk).keyblk i) (w ((d.block blk).keyblk i))

theorem exec_btcntkeysLoop (hz : Sized) (hhas : s.disk.Has blk) (n i : Nat) (tcnt : Int)
    (hnum : ∀ j : Nat, j < i + n → Weighs s.disk ((s.disk.block blk).keyblk j) (w ((s.disk.block blk).keyblk j))) :
    exec (btcntkeysLoop blk n i tcnt) s = .done (tcnt +
      (((List.range' i n).map fun j => w ((s.disk.block blk).keyblk (j : Nat))).sum : Nat), s) := by
  induction n generalizing i tcnt with
  | zero => simp [btcntkeysLoop]
  | succ n ih =>
      have hke := hnum i (by omega)
      have hcnt : ∀ f : Int → BT Int, exec (if ((s.disk.block blk).keyblk i).dup ≠ ZNULL then
          btcntdups FUEL ((s.disk.block blk).keyblk i).val 0 >>= f else pure 1 >>= f) s =
          exec (f (w ((s.disk.block blk).keyblk i))) s := by
        intro f
        unfold Weighs at hke
        by_cases hdup : ((s.disk.block blk).keyblk i).dup = ZNULL
        · rw [if_pos hdup] at hke
          rw [if_neg (not_not.2 hdup), exec_bind, exec_pure, Prog.Outcome.bind_done, hke]
          rfl
        · rw [if_neg hdup] at hke
          obtain ⟨ds,hlen,hfuel,hwalk⟩ := hke
          rw [if_pos hdup, exec_bind, exec_btcntdups hz FUEL 0 hwalk (by omega), Prog.Outcome.bind_done, hlen, zero_add]
      have hget : exec (getkeyent blk i) s = .done (some ((s.disk.block blk).keyblk i), s) := by
        simp only [getkeyent, exec_bind, exec_brdblk, Disk.read_eq hhas, Prog.Outcome.bind_done, exec_pure]
      rw [btcntkeysLoop, exec_bind, hget, Prog.Outcome.bind_done]
      dsimp only
      rw [hcnt fun kcnt => btcntkeysLoop blk n (i + 1) (tcnt + kcnt)]
      have hnext := ih (i + 1) (tcnt + w ((s.disk.block blk).keyblk i)) fun j hj => hnum j (by omega)
      rw [Nat.cast_succ] at hnext
      rw [hnext, List.range'_succ, List.map_cons, List.sum_cons, Nat.cast_add, add_assoc]

theorem exec_btcntkeys (hz : Sized) (hhas : s.disk.Has blk) (hnum : Weighed s.disk w blk) :
    exec (btcntkeys blk) s = .done ((blockCount s.disk w blk : Nat), s) := by
  rw [btcntkeys, exec_bind, exec_bgtinf hhas, Prog.Outcome.bind_done]
  have hloop := exec_btcntkeysLoop hz hhas (w := w) (s.disk.block blk).nkeys.toNat 0 0 fun j hj =>
    hnum j (by omega)
  rw [Nat.cast_zero, zero_add, ← List.range_eq_range'] at hloop
  rw [blockCount]
  exact hloop

-- What `btkeys` makes of a block, `n` the entries in it.
def Keys.visit (d : Disk) (n : Nat) (r : Keys) (blk depth : Int) : Keys :=
  if (d.block blk).nkeys = 0 ∧ r.empty_blk = ZNULL then
    if (d.block blk).btype ≠ ZROOT then { r with empty_blk := blk } else r
  else
    let r := if (d.block blk).nkeys = 0 then r else { r with link1 := (d.block blk).lnkblk 0 }
    let r :=
      if r.link1 ≠ ZNULL then r
      else if r.leaf_depth < 0 then { r with leaf_depth := depth }
      else if r.leaf_depth ≠ depth then { r with balanced := false, leaf_depth := max r.leaf_depth depth }
      else r
    { r with tnkeys := r.tnkeys + n }

theorem exec_btkeysBlock (hz : Sized) (hhas : s.disk.Has blk) (h0 : 0 ≤ (s.disk.block blk).nkeys)
    (hnum : Weighed s.disk w blk) (depth : Int) (r : Keys) :
    ∃ ke, exec (btkeysBlock blk depth r) s =
      .done (some (r.visit s.disk (blockCount s.disk w blk) blk depth), { s with ctx.keyent := ke }) := by
  simp only [btkeysBlock, exec_bind, exec_brdblk, Prog.Outcome.bind_done, exec_bgtinf hhas, Block.getInf_ZNKEYS, exec_ite,
    Block.getInf_ZBTYPE, exec_pure, Keys.visit]
  by_cases hempty : (s.disk.block blk).nkeys = 0 ∧ r.empty_blk = ZNULL
  · rw [if_pos hempty, if_pos hempty]
    exact ⟨s.ctx.keyent,rfl⟩
  · rw [if_neg hempty, if_neg hempty]
    have hcnt : ∀ ke, exec (btcntkeys blk) { s with ctx.keyent := ke } =
        .done ((blockCount s.disk w blk : Nat), { s with ctx.keyent := ke }) := fun ke =>
      exec_btcntkeys (s := { s with ctx.keyent := ke }) hz hhas hnum
    have hnn : ((blockCount s.disk w blk : Nat) : Int) ≠ ZNULL := by
      change ((blockCount s.disk w blk : Nat) : Int) ≠ -1
      omega
    rcases h0.eq_or_lt with hz0 | hpos
    · have hsrh : exec (bsrhbk blk { link1 := r.link1 }) s = .done ({ link1 := r.link1, result := -1 }, s) := by
        simp [bsrhbk, Disk.read_eq hhas, hz0.symm]
      rw [hsrh, Prog.Outcome.bind_done, hcnt s.ctx.keyent, Prog.Outcome.bind_done, if_pos hz0.symm]
      refine ⟨s.ctx.keyent,?_⟩
      simp only [if_neg hnn]
    · have hsrh := exec_bsrhbk_loc hhas { link1 := r.link1 } (le_refl (0 : Int)) hpos
      rw [hsrh, Prog.Outcome.bind_done, hcnt, Prog.Outcome.bind_done, if_neg hpos.ne']
      refine ⟨(s.disk.block blk).keyblk 0,?_⟩
      simp only [if_neg hnn]

-- The walk over blocks and their depths, and what is answered in the end.
def Keys.visits (d : Disk) (w : KeyEnt → Nat) : List (Int × Nat) → Keys → Keys
  | [], r => r
  | x :: l, r => visits d w l (r.visit d (blockCount d w x.1) x.1 x.2)

def Keys.answer (r : Keys) : Int := if r.empty_blk ≠ ZNULL ∨ ¬ r.balanced then ZNULL else r.tnkeys

variable {n m : Nat} {root : Int}

omit [Build] in
theorem Waits.depth {q : BlockTrail n m} (h : Waits s q) : (s.ctx.stk.length : Int) / 2 = q.depth := by
  cases q with
  | top =>
      rw [h.stk]
      rfl
  | step blk i rest up =>
      rw [h.stk, length_trailStk, Trail.depth_step]
      push_cast
      omega

-- What `btkeys` does with the block `x`, and then with those that are still to come.
theorem exec_btkeysLoop_rest (hz : Sized) (hm : m ≤ 20) (hfuel : 20 ≤ FUEL) (N : Nat) {k : Nat} (q : BlockTrail k m)
    (x : Int) (r : Keys) (s : St) (hroot : s.ctx.super.scroot = root) (hw : Waits s q) (hq : TrailPlanted s.disk q)
    (hnodup : (x :: q.todo).Nodup) (hlast : (x :: q.todo).getLast? = some root)
    (hblk : ∀ b ∈ x :: q.todo, s.disk.Has b ∧ 0 ≤ (s.disk.block b).nkeys ∧ Weighed s.disk w b)
    (hN : q.todo.length ≤ N) :
    ∃ s', exec (do
      match ← btkeysBlock x q.depth r with
      | none => return 0
      | some r =>
          if x ≠ (← get).super.scroot then btkeysLoop N x r
          else return if r.empty_blk ≠ ZNULL ∨ ¬ r.balanced then ZNULL else r.tnkeys : BT Int) s =
      .done ((r.visits s.disk w ((x, q.depth) :: q.plan)).answer, s') := by
  induction N generalizing k q x r s with
  | zero =>
      have hplan : q.plan = [] := List.map_eq_nil_iff.1 (List.length_eq_zero_iff.1 (Nat.le_zero.1 hN))
      have hx : x = root := by simpa [Trail.todo, hplan] using hlast
      obtain ⟨hhas,h0,hsound⟩ := hblk x List.mem_cons_self
      obtain ⟨ke,hexec⟩ := exec_btkeysBlock hz hhas h0 hsound q.depth r
      simp only [exec_bind, hexec, Prog.Outcome.bind_done, exec_get, exec_ite, hroot]
      rw [if_neg (not_not.2 hx), hplan]
      exact ⟨_,rfl⟩
  | succ N ih =>
      obtain ⟨hhas,h0,hsound⟩ := hblk x List.mem_cons_self
      obtain ⟨ke,hexec⟩ := exec_btkeysBlock hz hhas h0 hsound q.depth r
      simp only [exec_bind, hexec, Prog.Outcome.bind_done, exec_get, exec_ite, hroot]
      by_cases hx : x = root
      · have hplan : q.plan = [] := by
          by_contra hne
          have hne : q.todo ≠ [] := fun h => hne (List.map_eq_nil_iff.1 h)
          rw [List.getLast?_cons_of_ne_nil hne] at hlast
          exact (List.nodup_cons.1 hnodup).1 (hx ▸ List.mem_of_getLast? hlast)
        rw [if_neg (not_not.2 hx), hplan]
        exact ⟨_,rfl⟩
      · rw [if_pos hx]
        cases q with
        | top =>
            rw [Trail.todo_top, List.getLast?_singleton, Option.some_inj] at hlast
            exact absurd hlast hx
        | step blk i rest up =>
            obtain ⟨j,q',y,s2,hcall,hstroll,hw2,hq2,hplan⟩ := exec_bnxtbk_next (s := { s with ctx.keyent := ke }) hm hfuel
              (hw.same rfl rfl) hq hhas.ne_null
            have htodo : (Trail.step blk i rest up).todo = y :: q'.todo := congrArg (List.map Prod.fst) hplan
            have hnodup' := (List.nodup_cons.1 hnodup).2
            rw [List.getLast?_cons_of_ne_nil (by rw [htodo]; simp)] at hlast
            rw [htodo] at hnodup' hlast hN hblk
            obtain ⟨s3,hrest⟩ := ih q' y (r.visit s.disk (blockCount s.disk w x) x (Trail.step blk i rest up).depth) s2
              (by rw [hstroll.super, hroot]) hw2 (by rwa [hstroll.disk]) hnodup' hlast
              (fun b hb => by
                rw [hstroll.disk]
                exact hblk b (List.mem_cons_of_mem _ hb))
              (by
                rw [List.length_cons] at hN
                omega)
            refine ⟨s3,?_⟩
            rw [btkeysLoop]
            simp only [exec_bind, hcall, Prog.Outcome.bind_done, exec_get, hw2.depth]
            rw [hstroll.disk] at hrest
            rw [hplan]
            simp only [exec_bind] at hrest
            exact hrest

section Found

variable {d : Disk} {l : List (Int × Nat)} {r : Keys}

omit [Build] in
theorem visit_empty_blk (h : r.empty_blk ≠ ZNULL) (n : Nat) (blk depth : Int) :
    (r.visit d n blk depth).empty_blk = r.empty_blk := by
  rw [Keys.visit, if_neg fun hc => h hc.2]
  dsimp only
  repeat' split
  all_goals rfl

omit [Build] in
theorem visits_empty_blk (h : r.empty_blk ≠ ZNULL) : (r.visits d w l).empty_blk = r.empty_blk := by
  induction l generalizing r with
  | nil => rfl
  | cons x l ih =>
      have hx := visit_empty_blk (d := d) h (blockCount d w x.1) x.1 x.2
      rw [Keys.visits, ih (by rwa [hx]), hx]

omit [Build] in
theorem visits_finds_empty {x : Int × Nat} (hx : x ∈ l) (hnull : ∀ y ∈ l, y.1 ≠ ZNULL) (h0 : (d.block x.1).nkeys = 0)
    (htype : (d.block x.1).btype ≠ ZROOT) : (r.visits d w l).empty_blk ≠ ZNULL := by
  induction l generalizing r with
  | nil => exact absurd hx List.not_mem_nil
  | cons y l ih =>
      rw [Keys.visits]
      rcases List.mem_cons.1 hx with rfl | hx
      · have hvisit : (r.visit d (blockCount d w x.1) x.1 x.2).empty_blk ≠ ZNULL := by
          by_cases hr : r.empty_blk = ZNULL
          · rw [Keys.visit, if_pos ⟨h0,hr⟩, if_pos htype]
            exact hnull x List.mem_cons_self
          · rwa [visit_empty_blk hr]
        rwa [visits_empty_blk hvisit]
      · exact ih hx fun y hy => hnull y (List.mem_cons_of_mem _ hy)

-- The blocks with keys whose first link leads nowhere.
def leafy (d : Disk) (x : Int × Nat) : Bool := 0 < (d.block x.1).nkeys ∧ (d.block x.1).lnkblk 0 = ZNULL

omit [Build] in
theorem visit_full {blk : Int} (depth : Nat) (hpos : 0 < (d.block blk).nkeys) (n : Nat) {ds : List Nat}
    (hl : Level ds r.leaf_depth r.balanced) :
    (r.visit d n blk depth).empty_blk = r.empty_blk ∧ (r.visit d n blk depth).tnkeys = r.tnkeys + n ∧
      Level (ds ++ if leafy d (blk, depth) then [depth] else []) (r.visit d n blk depth).leaf_depth
        (r.visit d n blk depth).balanced := by
  rw [Keys.visit, if_neg fun hc => hpos.ne' hc.1, if_neg hpos.ne']
  by_cases hlink : (d.block blk).lnkblk 0 = ZNULL
  · have hleaf : leafy d (blk, depth) = true := by simp [leafy, hpos, hlink]
    have hnext := hl.snoc depth
    rw [if_pos hleaf]
    dsimp only
    rw [if_neg (not_not.2 hlink)]
    by_cases hneg : r.leaf_depth < 0
    · rw [if_pos hneg, if_pos hneg] at hnext
      rw [if_pos hneg]
      exact ⟨rfl,rfl,hnext⟩
    · rw [if_neg hneg, if_neg hneg] at hnext
      rw [if_neg hneg]
      by_cases hne : r.leaf_depth ≠ depth
      · rw [if_pos hne, if_pos hne] at hnext
        rw [if_pos hne]
        exact ⟨rfl,rfl,hnext⟩
      · rw [if_neg hne, if_neg hne] at hnext
        rw [if_neg hne]
        exact ⟨rfl,rfl,hnext⟩
  · have hleaf : ¬ leafy d (blk, depth) = true := by simp [leafy, hlink]
    rw [if_neg hleaf, List.append_nil]
    dsimp only
    rw [if_pos hlink]
    exact ⟨rfl,rfl,hl⟩

omit [Build] in
theorem visits_full (hfull : ∀ x ∈ l, 0 < (d.block x.1).nkeys ∨ (d.block x.1).nkeys = 0 ∧ (d.block x.1).btype = ZROOT)
    (he : r.empty_blk = ZNULL) {ds : List Nat} (hl : Level ds r.leaf_depth r.balanced) :
    (r.visits d w l).empty_blk = ZNULL ∧
      (r.visits d w l).tnkeys = r.tnkeys + ((l.map fun x => blockCount d w x.1).sum : Nat) ∧
      Level (ds ++ (l.filter (leafy d)).map Prod.snd) (r.visits d w l).leaf_depth (r.visits d w l).balanced := by
  induction l generalizing r ds with
  | nil =>
      refine ⟨he,by simp [Keys.visits],?_⟩
      rw [List.filter_nil, List.map_nil, List.append_nil]
      exact hl
  | cons x l ih =>
      have hrest := fun y hy => hfull y (List.mem_cons_of_mem _ hy)
      rw [Keys.visits, List.map_cons, List.sum_cons]
      rcases hfull x List.mem_cons_self with hpos | ⟨h0,htype⟩
      · obtain ⟨h1,h2,h3⟩ := visit_full x.2 hpos (blockCount d w x.1) hl
        obtain ⟨h4,h5,h6⟩ := ih hrest (h1.trans he) h3
        refine ⟨h4,?_,?_⟩
        · rw [h5, h2, Nat.cast_add, add_assoc]
        · rw [List.filter_cons]
          by_cases hleaf : leafy d x = true
          · rw [if_pos hleaf, List.append_assoc] at h6
            rw [if_pos hleaf]
            exact h6
          · rw [if_neg hleaf, List.append_nil] at h6
            rw [if_neg hleaf]
            exact h6
      · have hcount : blockCount d w x.1 = 0 := by simp [blockCount, h0]
        have hleaf : ¬ leafy d x = true := by simp [leafy, h0]
        have hvisit : r.visit d (blockCount d w x.1) x.1 x.2 = r := by
          rw [Keys.visit, if_pos ⟨h0,he⟩, if_neg (not_not.2 htype)]
        rw [hvisit, hcount, zero_add, List.filter_cons_of_neg hleaf]
        exact ih hrest he hl

end Found

omit [Build] in
theorem filter_leafy {d : Disk} {n : Nat} (t : BlockTree n) (h : Planted d t) (k : Nat)
    (hfull : ∀ b ∈ t.post, 0 < (d.block b).nkeys) : (t.postAt k).filter (leafy d) = t.leavesAt k := by
  induction n generalizing k with
  | zero => exact t.elim
  | succ n ih =>
      obtain ⟨blk,ks,rfl⟩ := t.eq_node
      obtain ⟨hhas,h0,hleaf,hkids,hks⟩ := planted_node.1 h
      have hpos := hfull blk (by simp)
      rw [postAt_node, List.filter_append, List.filter_flatten, List.map_map]
      change _ = if ks.isEmpty then [(blk, k)] else (ks.map (leavesAt (k + 1))).flatten
      cases ks with
      | nil => simp [leafy, hpos, hleaf rfl]
      | cons k0 ks =>
          have hlink : (d.block blk).lnkblk 0 = k0.label := (hkids (by simp)).2.1
          have hne := (hks k0 List.mem_cons_self).has.ne_null
          have hself : ¬ leafy d (blk, k) = true := by simp [leafy, hlink, hne]
          rw [List.filter_cons_of_neg hself, List.filter_nil, List.append_nil]
          have hmap : (k0 :: ks).map (List.filter (leafy d) ∘ postAt (k + 1)) = (k0 :: ks).map (leavesAt (k + 1)) :=
            List.map_congr_left fun c hc => ih c (hks c hc) (k + 1) fun b hb => hfull b (by
              rw [post_node]
              exact List.mem_append_left _ (List.mem_flatten.2 ⟨_,List.mem_map_of_mem hc,hb⟩))
          rw [hmap]
          rfl

omit [Build] in
theorem leafy_level {d : Disk} {t : BlockTree (m + 1)} (h : PlantedRoot d t)
    (hfull : ∀ b ∈ t.post, b ≠ t.label → 0 < (d.block b).nkeys) :
    (∀ x ∈ ((t.postAt 0).filter (leafy d)).map Prod.snd, ∀ y ∈ ((t.postAt 0).filter (leafy d)).map Prod.snd, x = y) ↔
      ∀ x ∈ t.leavesAt 0, ∀ y ∈ t.leavesAt 0, x.2 = y.2 := by
  rcases h.nonneg.eq_or_lt with h0 | hpos
  · have hnil : t.2 = [] := by
      by_contra hne
      have := (h.kids hne).1
      omega
    obtain ⟨root,ks,rfl⟩ := t.eq_node
    obtain rfl : ks = [] := hnil
    have hroot : (d.block root).nkeys = 0 := h0.symm
    have hleaves : (node root [] : BlockTree (m + 1)).leavesAt 0 = [(root, 0)] := rfl
    rw [hleaves]
    simp [leafy, hroot]
  · have hall : ∀ b ∈ t.post, 0 < (d.block b).nkeys := fun b hb => by
      by_cases hroot : b = t.label
      · rw [hroot]
        exact hpos
      · exact hfull b hb hroot
    rw [filter_leafy t (h.whole hpos) 0 hall]
    simp only [List.forall_mem_map]

-- The check says no where a block that is no root has no keys or two leaves are not at one depth, and elsewhere
-- it says how many entries there are, each duplicate counted once.
theorem btkeys_checks (hz : Sized) (hfuel : 20 ≤ FUEL) (hm : m + 1 ≤ 20) {t : BlockTree (m + 1)}
    (ht : PlantedRoot s.disk t) (hroot : s.ctx.super.scroot = t.label) (hnodup : t.post.Nodup)
    (hopen : s.ctx.isopen = true) (hexcl : s.ctx.shared = false)
    (htype : ∀ b ∈ t.post, (s.disk.block b).btype = ZROOT ↔ b = t.label) (hsound : ∀ b ∈ t.post, Weighed s.disk w b)
    (hN : t.post.length ≤ FUEL) :
    ∃ v s', exec btkeys s = .done (v, s') ∧
      (v = ZNULL ↔ (∃ b ∈ t.post, b ≠ t.label ∧ (s.disk.block b).nkeys = 0) ∨
        ∃ x ∈ t.leavesAt 0, ∃ y ∈ t.leavesAt 0, x.2 ≠ y.2) ∧
      (v ≠ ZNULL → v = ((t.post.map (blockCount s.disk w)).sum : Nat)) := by
  obtain ⟨N,hF⟩ : ∃ N, FUEL = N + 1 := ⟨FUEL - 1,by omega⟩
  have hstart : exec btkeys s = exec (btkeysLoop FUEL ZNULL {}) { s with ctx.err := ⟨"",0,.none⟩ } := by
    simp [btkeys, api, bvalap, enter, hopen, hexcl]
  obtain ⟨k,q,x,s1,hcall,hstroll,hw,hq,hplan⟩ := exec_bnxtbk_first (s := { s with ctx.err := ⟨"",0,.none⟩ }) hm hfuel ht
    hroot
  have hdisk : s1.disk = s.disk := hstroll.disk
  have htodo : t.post = x :: q.todo := (t.map_postAt 0).symm.trans (congrArg (List.map Prod.fst) hplan)
  have hpost : ∀ b ∈ t.post, s.disk.Has b ∧ 0 ≤ (s.disk.block b).nkeys ∧ Weighed s.disk w b := fun b hb =>
    ⟨(ht.at_post hb).1,(ht.at_post hb).2,hsound b hb⟩
  have hlast := t.post_getLast
  obtain ⟨s2,hrest⟩ := exec_btkeysLoop_rest (w := w) hz hm hfuel N q x {} s1 (by rw [hstroll.super]; exact hroot) hw
    (by rwa [hdisk]) (htodo ▸ hnodup) (htodo ▸ hlast) (by rwa [hdisk, ← htodo]) (by
      rw [htodo, List.length_cons] at hN
      omega)
  rw [hdisk, ← hplan] at hrest
  have hexec : exec btkeys s = .done ((Keys.visits s.disk w (t.postAt 0) {}).answer, s2) := by
    rw [hstart, hF, btkeysLoop]
    simp only [exec_bind, hcall, Prog.Outcome.bind_done, exec_get, hw.depth]
    simp only [exec_bind] at hrest
    exact hrest
  refine ⟨_,s2,hexec,?_⟩
  by_cases hempty : ∃ b ∈ t.post, b ≠ t.label ∧ (s.disk.block b).nkeys = 0
  · obtain ⟨b,hb,hne,h0⟩ := hempty
    obtain ⟨x,hx,rfl⟩ := List.mem_map.1 ((t.map_postAt 0).symm ▸ hb)
    have hfound := visits_finds_empty (w := w) (r := {}) hx
      (fun y hy => (hpost y.1 (t.map_postAt 0 ▸ List.mem_map_of_mem hy)).1.ne_null) h0 fun hroot => hne ((htype _ hb).1 hroot)
    rw [Keys.answer, if_pos (Or.inl hfound)]
    exact ⟨⟨fun _ => Or.inl ⟨x.1,hb,hne,h0⟩,fun _ => rfl⟩,fun hc => absurd rfl hc⟩
  · push Not at hempty
    have hkeys : ∀ b ∈ t.post, b ≠ t.label → 0 < (s.disk.block b).nkeys := fun b hb hne => by
      have := (hpost b hb).2.1
      have := hempty b hb hne
      omega
    obtain ⟨h1,h2,h3⟩ := visits_full (w := w) (d := s.disk) (l := t.postAt 0) (r := {}) (fun x hx => by
      have hb : x.1 ∈ t.post := t.map_postAt 0 ▸ List.mem_map_of_mem hx
      by_cases hne : x.1 = t.label
      · exact (hpost x.1 hb).2.1.lt_or_eq.imp_right fun h0 => ⟨h0.symm,(htype _ hb).2 hne⟩
      · exact Or.inl (hkeys x.1 hb hne)) rfl Level.nil
    have hlevel := h3.balanced_iff.trans (leafy_level ht hkeys)
    have hsum : (t.postAt 0).map (fun x => blockCount s.disk w x.1) = t.post.map (blockCount s.disk w) := by
      rw [← t.map_postAt 0, List.map_map]
      rfl
    rw [hsum] at h2
    rw [Keys.answer, h1, h2]
    by_cases hbal : (Keys.visits s.disk w (t.postAt 0) {}).balanced = true
    · rw [if_neg (by simp [hbal])]
      have hsame := hlevel.1 hbal
      refine ⟨⟨fun hv => absurd hv ?_,?_⟩,fun _ => zero_add _⟩
      · change (0 : Int) + _ ≠ -1
        omega
      · rintro (⟨b,hb,hne,h0⟩ | ⟨x,hx,y,hy,hne⟩)
        · exact absurd h0 (hempty b hb hne)
        · exact absurd (hsame x hx y hy) hne
    · rw [if_pos (Or.inr hbal)]
      refine ⟨⟨fun _ => Or.inr ?_,fun _ => rfl⟩,fun hc => absurd rfl hc⟩
      by_contra hno
      push Not at hno
      exact hbal (hlevel.2 hno)

end Count

section Run

attribute [local instance] smallBuild

theorem btkeys_checks_three :
    ∃ v s', exec btkeys threeBlocks = .done (v, s') ∧ (v ≠ ZNULL → v = 3) := by
  have hpost : ∀ b ∈ threeTree.post, b = 2 ∨ b = 3 ∨ b = 1 := fun b hb => by
    simpa [threeTree] using hb
  have hsound : ∀ b ∈ threeTree.post, Weighed threeBlocks.disk (fun _ => 1) b := fun b _ i _ => by
    have hdup : ((threeBlocks.disk.block b).keyblk i).dup = ZNULL := rfl
    rw [Weighs, if_pos hdup]
  obtain ⟨v,s',hexec,-,hv⟩ := btkeys_checks sized_small (by decide) (by decide) planted_three rfl (by decide) rfl rfl
    (fun b hb => by rcases hpost b hb with rfl | rfl | rfl <;> decide) hsound (by decide)
  exact ⟨v,s',hexec,hv⟩

end Run

end Btlib
