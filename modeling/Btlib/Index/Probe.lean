import Btlib.Index.Refine

namespace Btlib

namespace Block

variable {b : Block} {k : Key} {p md result : Int}

-- The keys of a block rise strictly.
def Rising (b : Block) : Prop :=
  ∀ i j, 0 ≤ i → i < j → j < b.nkeys → (b.keyblk i).key < (b.keyblk j).key

-- `k` belongs before the key at `p`.
structure Gap (b : Block) (k : Key) (p : Int) : Prop where
  low : 0 ≤ p
  high : p ≤ b.nkeys
  before : ∀ i, 0 ≤ i → i < p → (b.keyblk i).key < k
  after : ∀ i, p ≤ i → i < b.nkeys → k < (b.keyblk i).key

-- The search stops at an equal key, or beside the gap `k` belongs into; a key that is not there bounds
-- nothing.
structure Lands (b : Block) (k : Key) (md result : Int) : Prop where
  low : 0 ≤ md
  high : md < b.nkeys
  equal : result = 0 → (b.keyblk md).key = k
  left : result < 0 → k < (b.keyblk md).key ∧ (0 < md → (b.keyblk (md - 1)).key < k)
  right : 0 < result → (b.keyblk md).key < k ∧ (md + 1 < b.nkeys → k < (b.keyblk (md + 1)).key)

theorem Rising.le (h : b.Rising) {i j : Int} (h0 : 0 ≤ i) (hij : i ≤ j) (hj : j < b.nkeys) :
    (b.keyblk i).key ≤ (b.keyblk j).key := by
  rcases eq_or_lt_of_le hij with rfl | hlt
  · exact le_rfl
  · exact (h i j h0 hlt hj).le

theorem Rising.cut (h : b.Rising) (k : Key) (n : Nat) (hn : n ≤ b.nkeys) :
    ∃ p : Int, 0 ≤ p ∧ p ≤ n ∧ ∀ i : Int, 0 ≤ i → i < n → ((b.keyblk i).key < k ↔ i < p) := by
  induction n with
  | zero => exact ⟨0,le_rfl,le_rfl,fun i h0 hi => absurd hi (by omega)⟩
  | succ n ih =>
      obtain ⟨p,h0,hp,hcut⟩ := ih (by omega)
      by_cases hlt : (b.keyblk n).key < k
      · refine ⟨(n : Int) + 1,by omega,by omega,fun i hi0 hi => ?_⟩
        have hle := h.le hi0 (show i ≤ n by omega) (by omega)
        exact ⟨fun _ => by omega,fun _ => lt_of_le_of_lt hle hlt⟩
      · refine ⟨p,h0,by omega,fun i hi0 hi => ?_⟩
        rcases eq_or_lt_of_le (show i ≤ n by omega) with rfl | hin
        · exact ⟨fun hk => absurd hk hlt,fun hk => by omega⟩
        · exact hcut i hi0 hin

theorem Lands.of_gap (h : b.Gap k p) (h0 : 0 ≤ md) (h1 : md < b.nkeys)
    (hmd : (result < 0 ∧ md = p) ∨ (0 < result ∧ md + 1 = p)) : b.Lands k md result := by
  refine ⟨h0,h1,fun hr => by omega,fun hr => ?_,fun hr => ?_⟩
  · have hp : md = p := by omega
    exact ⟨h.after md hp.ge h1,fun _ => h.before (md - 1) (by omega) (by omega)⟩
  · have hp : md + 1 = p := by omega
    exact ⟨h.before md h0 (by omega),fun h2 => h.after (md + 1) hp.ge h2⟩

theorem search_lt {N : Int} (n : Nat) (lo hi md result : Int) (hlo : 0 ≤ lo) (hhi : hi < N) (hmd : md < N) :
    (b.search k n lo hi md result).1 < N := by
  induction n generalizing lo hi md result with
  | zero => exact hmd
  | succ n ih =>
      simp only [search]
      split
      · have hmid : lo ≤ (lo + hi) / 2 ∧ (lo + hi) / 2 ≤ hi := by omega
        split
        · exact lt_of_le_of_lt hmid.2 hhi
        · split
          · exact ih _ _ _ _ (by omega) hhi (by omega)
          · exact ih _ _ _ _ hlo (by omega) (by omega)
      · exact hmd

-- What the search of `bsrhbk` comes to, whether the key is there or not.
theorem search_rising (h : b.Rising) (hn : 0 < b.nkeys) (k : Key) :
    ∃ md result, b.search k b.nkeys.toNat 0 (b.nkeys - 1) (-1) (-1) = (md, result) ∧ b.Lands k md result ∧
      (result = 0 ∨ ∃ p, b.Gap k p ∧ ((result < 0 ∧ md = p) ∨ (0 < result ∧ md + 1 = p))) := by
  by_cases hfound : ∃ p, 0 ≤ p ∧ p < b.nkeys ∧ (b.keyblk p).key = k
  · obtain ⟨p,h0,h1,rfl⟩ := hfound
    refine ⟨p,0,?_,⟨h0,h1,fun _ => rfl,fun hr => absurd hr (lt_irrefl _),fun hr => absurd hr (lt_irrefl _)⟩,
      Or.inl rfl⟩
    refine search_of_found (N := b.nkeys) (fun i hi0 hi => ?_) (fun i hi0 hi => ?_) _ _ _ _ _ (by omega) le_rfl
      (by omega) h0 (by omega)
    · rw [strcmp_eq_zero_iff]
      constructor
      · intro heq
        rcases lt_trichotomy i p with hlt | rfl | hgt
        · exact absurd heq (h i p hi0 hlt h1).ne'
        · rfl
        · exact absurd heq (h p i h0 hgt hi).ne
      · rintro rfl
        rfl
    · rw [strcmp_pos_iff]
      constructor
      · intro hlt
        by_contra hge
        exact absurd hlt (h.le h0 (not_lt.1 hge) hi).not_gt
      · intro hlt
        exact h i p hi0 hlt h1
  · push Not at hfound
    obtain ⟨p,h0,hp,hcut⟩ := h.cut k b.nkeys.toNat (by omega)
    rw [Int.toNat_of_nonneg hn.le] at hp hcut
    have hgap : b.Gap k p := ⟨h0,hp,fun i hi0 hi => (hcut i hi0 (by omega)).2 hi,fun i hi hi1 => by
      have hle : k ≤ (b.keyblk i).key := not_lt.1 fun hlt => by
        have := (hcut i (by omega) hi1).1 hlt
        omega
      exact lt_of_le_of_ne hle (hfound i (by omega) hi1).symm⟩
    obtain ⟨md,result,hmd⟩ : ∃ md result, b.search k b.nkeys.toNat 0 (b.nkeys - 1) (-1) (-1) = (md, result) :=
      ⟨_,_,rfl⟩
    have hend := search_of_absent (b := b) (k := k) (N := b.nkeys) (p := p)
      (fun i hi0 hi => by
        rw [Ne, strcmp_eq_zero_iff]
        exact (hfound i hi0 hi).symm)
      (fun i hi0 hi => by rw [strcmp_pos_iff, hcut i hi0 hi]) b.nkeys.toNat 0 (b.nkeys - 1) (-1) (-1)
      (by omega) le_rfl (by omega) h0 (by omega) (fun hlt => absurd hlt (by omega))
    rw [hmd] at hend
    have hhigh := search_lt (b := b) (k := k) b.nkeys.toNat 0 (b.nkeys - 1) (-1) (-1) le_rfl
      (show b.nkeys - 1 < b.nkeys by omega) (by omega)
    rw [hmd] at hhigh
    exact ⟨md,result,hmd,.of_gap hgap hend.1 hhigh hend.2,Or.inr ⟨p,hgap,hend.2⟩⟩

end Block

section Turn

variable [Build] {s : St} {blk : Int} {o : Srh}

-- What `bfndky` notes of the block it has searched: its parent goes on the stack, and the block and the
-- position become the last found.
def bfndkyNote (blk pos : Int) (ke : KeyEnt) : BT Unit := do
  let c ← get
  bpush c.lf.lfblk
  bpush c.lf.lfpos
  modify fun c => { c with keyent := ke }
  setLf fun lf => { lf with lfblk := blk, lfpos := pos }

omit [Build] in
theorem exec_bsrhbk_probe (h : s.disk.Has blk) (ho : o.loc < 0) {md result : Int}
    (hs : (s.disk.block blk).search o.key (s.disk.block blk).nkeys.toNat 0 ((s.disk.block blk).nkeys - 1) (-1) (-1) =
      (md, result)) (h0 : 0 ≤ md) :
    exec (bsrhbk blk o) s =
      .done ({ o with
          loc := md, result := result, val := ((s.disk.block blk).keyblk md).val,
          link1 := (s.disk.block blk).lnkblk md, link2 := (s.disk.block blk).lnkblk (md + 1) },
        { s with ctx.keyent := (s.disk.block blk).keyblk md }) := by
  simp [bsrhbk, Disk.read_eq h, not_le.2 ho, hs, not_lt.2 h0]

omit [Build] in
theorem exec_bsrhbk_none (h : s.disk.Has blk) (ho : o.loc < 0) (hn : (s.disk.block blk).nkeys = 0) :
    exec (bsrhbk blk o) s =
      .done ({ o with loc := -1, result := -1, val := 0, link1 := ZNULL, link2 := ZNULL }, s) := by
  simp [bsrhbk, Disk.read_eq h, not_le.2 ho, hn, Block.search]

-- A turn of `bfndky` on a block it does not split.
theorem exec_bfndkyLoop_turn (h : s.disk.Has blk)
    (hkeep : ¬ ((s.disk.block blk).nkeys = ZMXKEY ∧ s.ctx.super.smode = 0)) {r : Srh} {e : KeyEnt}
    (hsrh : ∀ stk, exec (bsrhbk blk { o with loc := -1 }) { s with ctx.stk := stk } =
      .done (r, { s with ctx.stk := stk, ctx.keyent := e })) (n : Nat) :
    exec (bfndkyLoop (n + 1) blk o) s = exec (do
      bfndkyNote blk (if 0 < r.result then r.loc + 1 else r.loc) e
      if r.result < 0 then bfndkyLoop n r.link1 r
      else if 0 < r.result then bfndkyLoop n r.link2 r
      else
        setLf fun lf => { lf with lfexct := true }
        let q ← btduppos ZNEXT r.val
        return (0, q.2)) s := by
  rw [bfndkyLoop, if_neg h.ne_null]
  simp only [bfndkyNote, exec_bind, exec_get, Prog.Outcome.bind_done, exec_bgtinf h, Block.getInf_ZNKEYS, exec_ite,
    if_neg hkeep]
  by_cases hfull : (STKMAX : Int) ≤ s.ctx.stk.length - 1
  · rw [exec_bpush_refused hfull]
    rfl
  · rw [exec_bpush hfull]
    simp only [Prog.Outcome.bind_done]
    by_cases hfull' : (STKMAX : Int) ≤ ((s.ctx.lf.lfblk :: s.ctx.stk).length : Int) - 1
    · rw [exec_bpush_refused hfull']
      rfl
    · rw [exec_bpush hfull']
      simp only [Prog.Outcome.bind_done]
      rw [hsrh]
      simp only [Prog.Outcome.bind_done, exec_setLf, exec_modify]
      rcases lt_trichotomy r.result 0 with hr | hr | hr
      · simp only [if_pos hr, if_neg hr.not_gt]
      · simp only [hr, lt_irrefl, if_false]
      · simp only [if_neg hr.not_gt, if_pos hr]

-- What `bsrhbk` answers to a search for `k` in the block `b`.
structure Block.Probes (b : Block) (k : Key) (o : Srh) : Prop where
  lands : b.Lands k o.loc o.result
  link1 : o.link1 = b.lnkblk o.loc
  link2 : o.link2 = b.lnkblk (o.loc + 1)

-- The search ends at the key or beside its gap, and `bfndky` goes on where the key belongs. A block without
-- keys has no position to go on from.
theorem search_probes (h : s.disk.Has blk) (hn : 0 ≤ (s.disk.block blk).nkeys) (hrise : (s.disk.block blk).Rising)
    (ho : o.loc < 0) :
    ∃ o' ke, exec (bsrhbk blk o) s = .done (o', { s with ctx.keyent := ke }) ∧
      (0 < (s.disk.block blk).nkeys → (s.disk.block blk).Probes o.key o') ∧
      ((s.disk.block blk).nkeys = 0 → o'.loc = -1 ∧ o'.result < 0 ∧ o'.link1 = ZNULL ∧ o'.link2 = ZNULL) ∧
      (¬ ((s.disk.block blk).nkeys = ZMXKEY ∧ s.ctx.super.smode = 0) → ∀ n,
        (o'.result = 0 → exec (bfndkyLoop (n + 1) blk o) s = exec (do
          bfndkyNote blk o'.loc ke
          setLf fun lf => { lf with lfexct := true }
          let r ← btduppos ZNEXT o'.val
          return (0, r.2)) s) ∧
        (o'.result ≠ 0 → ∃ p link,
          exec (bfndkyLoop (n + 1) blk o) s = exec (do
            bfndkyNote blk p ke
            bfndkyLoop n link o') s ∧
          (0 < (s.disk.block blk).nkeys → (s.disk.block blk).Gap o.key p ∧ link = (s.disk.block blk).lnkblk p) ∧
          ((s.disk.block blk).nkeys = 0 → p = -1 ∧ link = ZNULL))) := by
  rcases hn.eq_or_lt with hz | hpos
  · refine ⟨_,s.ctx.keyent,exec_bsrhbk_none h ho hz.symm,fun hpos => absurd hpos (by omega),
      fun _ => ⟨rfl,show (-1 : Int) < 0 by decide,rfl,rfl⟩,fun hkeep n => ⟨fun hr => absurd hr (show (-1 : Int) ≠ 0 by decide),
        fun _ => ⟨-1,ZNULL,?_,?_⟩⟩⟩
    · rw [exec_bfndkyLoop_turn h hkeep fun stk =>
        exec_bsrhbk_none (s := { s with ctx.stk := stk }) (o := { o with loc := -1 }) h (show (-1 : Int) < 0 by decide)
          hz.symm]
      rfl
    · exact ⟨fun hpos => absurd hpos (by omega),fun _ => ⟨rfl,rfl⟩⟩
  · obtain ⟨md,result,hs,hlands,hgap⟩ := Block.search_rising hrise hpos o.key
    refine ⟨_,_,exec_bsrhbk_probe h ho hs hlands.low,fun _ => ⟨hlands,rfl,rfl⟩,fun hz => absurd hz (by omega),
      fun hkeep n => ?_⟩
    have hturn := exec_bfndkyLoop_turn h hkeep (r := { o with
        loc := md, result := result, val := ((s.disk.block blk).keyblk md).val,
        link1 := (s.disk.block blk).lnkblk md, link2 := (s.disk.block blk).lnkblk (md + 1) })
      (e := (s.disk.block blk).keyblk md) (fun stk =>
      exec_bsrhbk_probe (s := { s with ctx.stk := stk }) (o := { o with loc := -1 }) h (show (-1 : Int) < 0 by decide)
        hs hlands.low) n
    refine ⟨fun hr => ?_,fun hr => ?_⟩
    · rw [hturn]
      dsimp only at hr ⊢
      simp only [hr, lt_irrefl, if_false]
    · dsimp only at hr ⊢
      obtain ⟨p,hp,hside⟩ := hgap.resolve_left hr
      refine ⟨p,(s.disk.block blk).lnkblk p,?_,fun _ => ⟨hp,rfl⟩,fun hz => absurd hz (by omega)⟩
      rw [hturn]
      rcases hside with ⟨hneg,rfl⟩ | ⟨hright,rfl⟩
      · simp only [if_pos hneg, if_neg hneg.not_gt]
      · simp only [if_neg hright.not_gt, if_pos hright]

end Turn

section Run

attribute [local instance] smallBuild

-- A file whose blocks have `n` keys, with links to block 7.
def keyed (n : Int) : St :=
  { St.fresh with
    disk := ⟨fun _ => { Block.blank with
      nkeys := n, keyblk := fun i => ⟨[Fin.ofNat 256 (65 + 2 * i).toNat],i,ZNULL⟩, lnkblk := fun _ => 7 },2⟩ }

theorem search_probes_three :
    ∃ o' ke, exec (bsrhbk 1 { key := [66], loc := -1 }) (keyed 3) = .done (o', { keyed 3 with ctx.keyent := ke }) ∧
      ((keyed 3).disk.block 1).Probes [66] o' := by
  have hrise : ((keyed 3).disk.block 1).Rising := by
    intro i j h0 hij hj
    have hj : j < 3 := hj
    obtain ⟨rfl,rfl⟩ | ⟨rfl,rfl⟩ | ⟨rfl,rfl⟩ : (i = 0 ∧ j = 1) ∨ (i = 0 ∧ j = 2) ∨ (i = 1 ∧ j = 2) := by omega
    all_goals decide
  have hhas : (keyed 3).disk.Has 1 := ⟨by decide,by decide⟩
  obtain ⟨o',ke,h,hpos,-⟩ := search_probes (o := { key := [66], loc := -1 }) hhas (by decide) hrise (by decide)
  exact ⟨o',ke,h,hpos (by decide)⟩

-- In a block without keys `bfndky` notes no position, and does not follow the one link.
theorem search_misses_only_link :
    ((keyed 0).disk.block 1).Rising ∧
    exec (bsrhbk 1 { loc := -1 }) (keyed 0) =
      .done ({ loc := -1, result := -1, link1 := ZNULL, link2 := ZNULL }, keyed 0) ∧
    ((keyed 0).disk.block 1).lnkblk 0 = 7 ∧ ¬ ((keyed 0).disk.block 1).Gap [] (-1) ∧
    ∃ s', exec (bfndkyLoop 2 1 {}) (keyed 0) = .done ((QNOKEY, 0), s') ∧ s'.ctx.lf.lfpos = -1 := by
  have hhas : (keyed 0).disk.Has 1 := ⟨by decide,by decide⟩
  refine ⟨fun i j h0 hij hj => absurd (show j < 0 from hj) (by omega),
    exec_bsrhbk_none hhas (show (-1 : Int) < 0 by decide) rfl,rfl,fun h => absurd h.low (by decide),?_⟩
  rw [exec_bfndkyLoop_turn hhas (by decide) (e := (keyed 0).ctx.keyent) fun stk =>
    exec_bsrhbk_none (s := { keyed 0 with ctx.stk := stk }) (o := { loc := -1 }) hhas (show (-1 : Int) < 0 by decide)
      rfl]
  exact ⟨_,rfl,rfl⟩

end Run

end Btlib
