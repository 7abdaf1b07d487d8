import Btlib.Walk.Current

namespace Btlib

open Multiway Links

section Calls

variable [Build] {s s' : St} {os : List Int} {μ : Key → List Int} {keys : Nat} {o o' : Standing} {k : Key} {v : Int}
  {L l a : List Item} {mv : Move} {x : Int × Option Item}

theorem Entries.ends_move (hb : Sized) (h : Entries s os μ keys L o) (hfuel : keys + 3 ≤ FUEL) (mv : Move)
    (hgo : o.go mv = some (x,o')) : (exec mv.answer s).Ends (Refused s.ctx.super.scroot) fun r =>
      r.1 = x ∧ SameRoot s r.2 ∧ Entries r.2 os μ keys L o' := by
  obtain ⟨hw,m,t,fs,D,nd,live,ent,hl,hlen,hlist,hp⟩ := h
  refine (ends_own_move hb (hl.shelf hw.isopen) hw.shared (by omega) hp mv hgo).mono (fun _ _ h => h) fun r hr => ?_
  obtain ⟨rfl,hwent⟩ := hr
  have hctx := hwent.ctx
  have hsuper : r.2.ctx.super = s.ctx.super := by rw [hctx]
  refine ⟨rfl,⟨by rw [hsuper],by rw [hwent.disk, hsuper]⟩,⟨by rw [hctx]; exact hw.isopen,by rw [hctx]; exact hw.shared,
    by rw [hsuper]; exact hw.mode⟩,m,t,fs,D,nd,live,ent,hl.same hwent.disk hsuper,hlen,hlist,hwent.position⟩

-- After a deletion: the move goes on from where the entry was, unless its block of duplicates has gone.
theorem Entries.ends_delete_move (hb : Sized) (hcap : 8 ≤ ZMXKEY) (h : Entries s os μ keys L (.place ⟨l,some (k,v),a⟩))
    (hfuel : 2 * keys + 3 ≤ FUEL) (hmends : (μ k).length = 1 → Mends s os μ k) (mv : Move) :
    (exec (bdelky none) s).Ends (Refused s.ctx.super.scroot) fun r => r.1 = 0 ∧
      (exec mv.answer r.2).Ends (Refused s.ctx.super.scroot) fun r' =>
        (r'.1 = Move.reply (follow mv.dir ⟨l,none,a⟩) ↔ ¬ Frees s μ k) ∧ SameRoot s r'.2 ∧ ∃ ν o',
          Entries r'.2 os ν keys (l ++ a) o' ∧ (¬ Frees s μ k → o' = Standing.arrive (follow mv.dir ⟨l,none,a⟩)) := by
  refine (h.ends_delete hb hcap hfuel hmends).mono (fun _ _ h => h) fun r hr => ?_
  obtain ⟨hcode,hsame,ν,o,ho,hfrees⟩ := hr
  refine ⟨hcode,?_⟩
  rw [← hsame.root]
  rcases hfrees with ⟨hfrees,rfl⟩ | ⟨hfrees,rfl⟩
  · refine (ho.ends_move hb (by omega) mv rfl).mono (fun _ _ h => h) fun r' hr' => ?_
    obtain ⟨hx,hsame',ho'⟩ := hr'
    refine ⟨iff_of_false (fun hreply => ?_) (not_not.2 hfrees),hsame.trans hsame',ν,_,ho',fun hno => absurd hfrees hno⟩
    rw [hx] at hreply
    cases hf : follow mv.dir ⟨l,none,a⟩ with
    | none =>
        rw [hf] at hreply
        exact absurd (congrArg Prod.fst hreply) (by decide)
    | some y =>
        have hcode : QNOTDUP ≠ 0 := by decide
        rw [hf] at hreply
        exact hcode (congrArg Prod.fst hreply)
  · refine (ho.ends_move hb (by omega) mv rfl).mono (fun _ _ h => h) fun r' hr' => ?_
    obtain ⟨hx,hsame',ho'⟩ := hr'
    exact ⟨iff_of_true hx hfrees,hsame.trans hsame',ν,_,ho',fun _ => rfl⟩

namespace Move

-- Deletions of the selected entry, each with a move behind it.
def sweep (mv : Move) : Nat → BT (List (Int × (Int × Option Item)))
  | 0 => return []
  | n + 1 => do
      let code ← bdelky none
      let r ← mv.answer
      let rs ← mv.sweep n
      return (code, r) :: rs

-- The entries in front of a place, seen in the direction of the moves, and those behind it.
def ahead : Move → List Item → List Item → List Item
  | next, _, a => a
  | prev, l, _ => l.reverse

def behind : Move → List Item → List Item → List Item
  | next, l, _ => l
  | prev, _, a => a

omit [Build] in
theorem follow_ahead (mv : Move) (l a : List Item) : mv.ahead l a = [] ∧ follow mv.dir ⟨l,none,a⟩ = none ∨
    ∃ k v l' a', follow mv.dir ⟨l,none,a⟩ = some ((k,v),⟨l',some (k,v),a'⟩) ∧
      mv.ahead l a = (k,v) :: mv.ahead l' a' ∧ mv.behind l' a' = mv.behind l a := by
  cases mv with
  | next =>
      cases a with
      | nil => exact Or.inl ⟨rfl,rfl⟩
      | cons y a => exact Or.inr ⟨y.1,y.2,l,a,by simp [follow, dir, Cursor.next],rfl,rfl⟩
  | prev =>
      rcases List.eq_nil_or_concat' l with rfl | ⟨l,y,rfl⟩
      · exact Or.inl ⟨rfl,rfl⟩
      · refine Or.inr ⟨y.1,y.2,l,a,?_,by simp [ahead],rfl⟩
        rw [dir, follow, if_neg (by decide), Cursor.prev_append]
        rfl

omit [Build] in
theorem behind_eq (h : mv.ahead l a = []) : l ++ a = mv.behind l a := by
  cases mv with
  | next =>
      obtain rfl : a = [] := h
      exact List.append_nil l
  | prev =>
      obtain rfl : l = [] := List.reverse_eq_nil_iff.1 h
      rfl

end Move

-- The selected entry can be taken out, and its place is still known then.
def Removable (s : St) (os : List Int) (keys : Nat) : Prop :=
  ∀ (μ : Key → List Int) (L l a : List Item) (k : Key) (v : Int),
    Entries s os μ keys L (.place ⟨l,some (k,v),a⟩) → ((μ k).length = 1 → Mends s os μ k) ∧ ¬ Frees s μ k

-- Every deletion of a sweep starts from such an entry.
def Move.Sweeps (mv : Move) (os : List Int) (keys : Nat) : Nat → St → Prop
  | 0, _ => True
  | n + 1, s => Removable s os keys ∧ ∀ code s1 r s', exec (bdelky none) s = .done (code, s1) →
      exec mv.answer s1 = .done (r, s') → mv.Sweeps os keys n s'

-- On the entries ahead: a deletion with its move comes to the next of them.
theorem Entries.ends_sweep (hb : Sized) (hcap : 8 ≤ ZMXKEY) {n : Nat} (h : Entries s os μ keys L (.place ⟨l,some (k,v),a⟩))
    (hfuel : 2 * keys + 3 ≤ FUEL) (hn : (mv.ahead l a).length = n) (hmet : mv.Sweeps os keys (n + 1) s) :
    (exec (mv.sweep (n + 1)) s).Ends (Refused s.ctx.super.scroot) fun r =>
      r.1 = (mv.ahead l a).map (fun y => (0, (0, some y))) ++ [(0, (QNOKEY, none))] ∧
        ∃ ν o, Entries r.2 os ν keys (mv.behind l a) o := by
  induction n generalizing s μ L l a k v with
  | zero =>
      obtain ⟨hmends,hfrees⟩ := hmet.1 μ L l a k v h
      have hnil : mv.ahead l a = [] := List.length_eq_zero_iff.1 hn
      have hf : follow mv.dir ⟨l,none,a⟩ = none := by
        rcases mv.follow_ahead l a with ⟨-,hf⟩ | ⟨k,v,l',a',-,hcons,-⟩
        · exact hf
        · rw [hnil] at hcons
          cases hcons
      simp only [Move.sweep, exec_bind, exec_pure]
      refine (h.ends_delete_move hb hcap hfuel hmends mv).bind ?_
      rintro ⟨code,s1⟩ ⟨hcode,hmove⟩
      refine hmove.bind ?_
      rintro ⟨r,s2⟩ ⟨hr,-,ν,o',ho',-⟩
      have hr : r = (QNOKEY, none) := by simpa [hf, Move.reply] using hr.2 hfrees
      rw [hnil]
      exact ⟨by rw [show code = 0 from hcode, hr]; rfl,ν,o',Move.behind_eq hnil ▸ ho'⟩
  | succ n ih =>
      obtain ⟨hone,hrest⟩ := hmet
      obtain ⟨hmends,hfrees⟩ := hone μ L l a k v h
      obtain ⟨k',v',l',a',hf,hcons,hbehind⟩ := (mv.follow_ahead l a).resolve_left fun hnil => by
        rw [hnil.1] at hn
        cases hn
      rw [Move.sweep, exec_bind]
      refine (h.ends_delete_move hb hcap hfuel hmends mv).self.bind ?_
      rintro ⟨code,s1⟩ ⟨hdel,hcode,hmove⟩
      rw [exec_bind]
      refine hmove.self.bind ?_
      rintro ⟨r,s2⟩ ⟨hrun,hr,hsame,ν,o',ho',harrive⟩
      have hr : r = (0, some (k', v')) := by simpa [hf, Move.reply] using hr.2 hfrees
      have ho' : Entries s2 os ν keys (l ++ a) (.place ⟨l',some (k',v'),a'⟩) := by
        rw [harrive hfrees, hf] at ho'
        exact ho'
      have hlen : (mv.ahead l' a').length = n := by
        rw [hcons, List.length_cons] at hn
        exact Nat.succ.inj hn
      have htail := ih ho' hlen (hrest code s1 r s2 hdel hrun)
      rw [hsame.root] at htail
      simp only [exec_bind, exec_pure]
      refine htail.bind ?_
      rintro ⟨rs,s3⟩ ⟨hrs,ν',o,ho⟩
      rw [hcons, hbehind.symm, show code = 0 from hcode, hr]
      exact ⟨by rw [show rs = _ from hrs]; rfl,ν',o,ho⟩

-- A deletion of the selected entry answers 0, and a move then goes on from its place if and only if its block of
-- duplicates is still there; as long as it is, deletions with moves between them visit every entry ahead once, and
-- take it out.
theorem deletions_go_on (hb : Sized) (hcap : 8 ≤ ZMXKEY) (h : Entries s os μ keys L (.place ⟨l,some (k,v),a⟩))
    (hfuel : 2 * keys + 3 ≤ FUEL) (mv : Move) :
    (((μ k).length = 1 → Mends s os μ k) → (exec (bdelky none) s).Ends (Refused s.ctx.super.scroot) fun r => r.1 = 0 ∧
      (exec mv.answer r.2).Ends (Refused s.ctx.super.scroot) fun r' =>
        (r'.1 = Move.reply (follow mv.dir ⟨l,none,a⟩) ↔ ¬ Frees s μ k) ∧ ∃ ν o', Entries r'.2 os ν keys (l ++ a) o') ∧
      (mv.Sweeps os keys ((mv.ahead l a).length + 1) s →
        (exec (mv.sweep ((mv.ahead l a).length + 1)) s).Ends (Refused s.ctx.super.scroot) fun r =>
          r.1 = (mv.ahead l a).map (fun y => (0, (0, some y))) ++ [(0, (QNOKEY, none))] ∧
            ∃ ν o, Entries r.2 os ν keys (mv.behind l a) o) := by
  refine ⟨fun hmends => ?_,fun hmet => h.ends_sweep hb hcap hfuel rfl hmet⟩
  refine (h.ends_delete_move hb hcap hfuel hmends mv).mono (fun _ _ h => h) fun r hr => ⟨hr.1,?_⟩
  refine hr.2.mono (fun _ _ h => h) fun r' hr' => ?_
  obtain ⟨hreply,-,ν,o',ho',-⟩ := hr'
  exact ⟨hreply,ν,o',ho'⟩

section Few

theorem Entries.few (h : Entries s os μ keys L o) : Few (fun k => (μ k).head?) keys := by
  obtain ⟨-,m,t,fs,D,nd,live,ent,hl,hlen,-,-⟩ := h
  refine ⟨t.inorder.map KeyEnt.key,by rwa [List.length_map],fun k hk => ?_⟩
  by_contra hmem
  refine hk ?_
  change (μ k).head? = none
  rw [hl.absent k fun e he hek => hmem (hek ▸ List.mem_map_of_mem he)]
  rfl

-- The entries are those of the keys that have values.
theorem Entries.list_of_keys (h : Entries s os μ keys L o) {K : List Key} (hK : K.Pairwise (· < ·))
    (hmem : ∀ k, μ k ≠ [] ↔ k ∈ K) : L = K.flatMap fun k => (μ k).map (k, ·) := by
  obtain ⟨-,m,t,fs,D,nd,live,ent,hl,-,rfl,-⟩ := h
  have hkeys : t.inorder.map KeyEnt.key = K := by
    have hsort : (t.inorder.map KeyEnt.key).Pairwise (· < ·) := List.pairwise_map.2 hl.formed.sorted
    refine List.Perm.eq_of_pairwise (fun a b _ _ h1 h2 => absurd h1 h2.not_gt) hsort hK
      ((List.perm_ext_iff_of_nodup (hsort.imp ne_of_lt) (hK.imp ne_of_lt)).2 fun k => ?_)
    rw [← hmem]
    refine ⟨fun hk => ?_,fun hk => ?_⟩
    · obtain ⟨e,he,rfl⟩ := List.mem_map.1 hk
      obtain ⟨v,vs,ps,hvs,-⟩ := hl.values he
      rw [hvs]
      exact List.cons_ne_nil v vs
    · by_contra hno
      exact hk (hl.absent k fun e he hek => hno (hek ▸ List.mem_map_of_mem he))
  rw [← hkeys, List.flatMap_map]
  rfl

-- The key whose values a call may change.
def MixedCall.touches : MixedCall → Option Key
  | .named c => some (keycpy c.key)
  | _ => none

omit [Build] in
theorem MixedCall.values_of_ne {c : MixedCall} {dups : Bool} (h : c.touches ≠ some k) : c.values dups μ k = μ k := by
  cases c with
  | named c =>
      have hne : k ≠ keycpy c.key := fun hk => h (by rw [touches, hk])
      cases c with
      | insert k' v =>
          simp only [values, DupCall.ofRoot, DupCall.ofLists]
          split
          · rfl
          · exact Function.update_of_ne hne _ _
      | find k' => rfl
      | update k' v =>
          simp only [values, DupCall.ofRoot, DupCall.ofLists]
          split
          · rfl
          · exact Function.update_of_ne hne _ _
      | delete k' =>
          simp only [values, DupCall.ofRoot, DupCall.ofLists]
          split
          · rfl
          · exact Function.update_of_ne hne _ _
  | pos i => rfl
  | move mv => rfl

omit [Build] in
theorem MixedCall.valuesAfter_of_ne {dups : Bool} (cs : List MixedCall) (h : ∀ c ∈ cs, c.touches ≠ some k) :
    valuesAfter dups μ cs k = μ k := by
  induction cs generalizing μ with
  | nil => rfl
  | cons c cs ih =>
      rw [valuesAfter, ih fun c hc => h c (List.mem_cons_of_mem _ hc), values_of_ne (h c List.mem_cons_self)]

-- Whether every deletion of a sweep leaves its block of duplicates in use.
def Move.still (mv : Move) : Nat → St → Bool
  | 0, _ => true
  | n + 1, s => decide ((s.disk.block (cnvdraddr s.ctx.lf.draddr).1).misc + entSz ≠ ZDATSZ) &&
      match (exec (bdelky none) s).result with
      | none => true
      | some r => match (exec mv.answer r.2).result with
        | none => true
        | some r' => mv.still n r'.2

theorem Move.sweeps_of_still (hkeys : keys ≤ 2 * ZMXKEY) (hcap : 2 * ZMXKEY + 1 < 2 ^ 21) (n : Nat)
    (h : mv.still n s = true) : mv.Sweeps os keys n s := by
  induction n generalizing s with
  | zero => trivial
  | succ n ih =>
      rw [Move.still, Bool.and_eq_true, decide_eq_true_eq] at h
      refine ⟨fun μ L l a k v hent => ⟨fun _ => .of_few (hent.few.mono hkeys) hcap,fun hno => h.1 hno.2⟩,
        fun code s1 r s' hdel hmove => ih ?_⟩
      have hrest := h.2
      rw [hdel] at hrest
      dsimp only [Prog.Outcome.result] at hrest
      rw [hmove] at hrest
      exact hrest

end Few

end Calls

section Run

attribute [local instance] dupsBuild

attribute [local irreducible] exec

-- Two keys of two values in a tree of two levels, and the position at the key between them.
def sweepTurns : List MixedCall :=
  [.named (.insert [65] 7), .named (.insert [66] 5), .named (.insert [65] 8)] ++
    (List.range 21).map (fun i => .named (.insert [Fin.ofNat 256 (67 + i)] i)) ++
      [.named (.insert [70] 9), .named (.find [66])]

-- The entries behind that position.
def sweptItems : List Item :=
  [([67],0),([68],1),([69],2),([70],3),([70],9)] ++ (List.range 17).map fun i => ([Fin.ofNat 256 (71 + i)],((i + 4 : Nat) : Int))

def sweptKeys : List Key := (List.range 23).map fun i => [Fin.ofNat 256 (65 + i)]

theorem sorted_sweptKeys : sweptKeys.Pairwise (· < ·) := by decide +kernel

theorem mem_sweptKeys (k : Key) : MixedCall.valuesAfter true (fun _ => []) sweepTurns k ≠ [] ↔ k ∈ sweptKeys := by
  have htouched : ∀ k ∈ sweepTurns.filterMap MixedCall.touches,
      (MixedCall.valuesAfter true (fun _ => []) sweepTurns k ≠ [] ↔ k ∈ sweptKeys) := by decide +kernel
  have hkeys : ∀ k ∈ sweptKeys, k ∈ sweepTurns.filterMap MixedCall.touches := by decide +kernel
  by_cases hk : k ∈ sweepTurns.filterMap MixedCall.touches
  · exact htouched k hk
  · rw [MixedCall.valuesAfter_of_ne sweepTurns fun c hc htc => hk (List.mem_filterMap.2 ⟨c,hc,htc⟩)]
    exact iff_of_false (fun hno => hno rfl) fun hno => hk (hkeys k hno)

theorem entries_sweepTurns : ∃ r, exec (MixedCall.answers sweepTurns) St.freshWords = .done r ∧
    Entries r.2 [0] (MixedCall.valuesAfter true (fun _ => []) sweepTurns) 26 (([65],7) :: ([65],8) :: ([66],5) :: sweptItems)
      (.place ⟨[([65],7),([65],8)],some ([66],5),sweptItems⟩) := by
  have hmet : MixedCall.Met [0] true sweepTurns St.freshWords fun _ => [] :=
    MixedCall.met_of_starts _ few_none (by decide +kernel) (by decide +kernel) (by decide +kernel)
  have h := MixedCall.ends_answers sized_dups (by decide) selects_freshWords sweepTurns (by decide +kernel)
    (by decide +kernel) hmet
  have hrun : (exec (MixedCall.answers sweepTurns) St.freshWords).result.map (fun r => (r.2.ctx.lf.lfexct, r.2.ctx.lf.lfkey,
      ((r.2.disk.block r.2.ctx.lf.lfblk).keyblk r.2.ctx.lf.lfpos).dup)) = some (true, [66], ZNULL) := by
    decide +kernel
  obtain ⟨r,hr,hval⟩ := Option.map_eq_some_iff.1 hrun
  have hr := Prog.Outcome.result_eq_some.1 hr
  simp only [Prod.mk.injEq] at hval
  obtain ⟨hexct,hkey,hdup⟩ := hval
  rw [hr, Prog.Outcome.ends_done] at h
  obtain ⟨o,ho⟩ := h
  obtain ⟨L,hL⟩ := ho.selects.entries
  obtain ⟨l,v,a,rfl,hsplit⟩ := hL.selected hexct fun hno => hno.2 hdup
  rw [hkey] at hL hsplit
  have hdups : DupCall.dupsOf St.freshWords = true := by decide +kernel
  rw [hdups] at hL
  have hlist := hL.list_of_keys sorted_sweptKeys mem_sweptKeys
  have hall : (sweptKeys.flatMap fun k => (MixedCall.valuesAfter true (fun _ => []) sweepTurns k).map (k, ·)) =
      [([65],7),([65],8)] ++ ([66],5) :: sweptItems := by decide +kernel
  have hother : ∀ x ∈ [(([65] : Key),(7 : Int)),([65],8)] ++ sweptItems, x.1 ≠ [66] := by decide +kernel
  have hbefore : ([66], v) ∉ [(([65] : Key),(7 : Int)),([65],8)] := fun hmem => hother _ (List.mem_append_left _ hmem) rfl
  have hafter : ([66], v) ∉ sweptItems := fun hmem => hother _ (List.mem_append_right _ hmem) rfl
  obtain ⟨rfl,hv,rfl⟩ := (List.append_cons_inj_of_notMem hbefore hafter).1 ((hlist.trans hall).symm.trans hsplit)
  obtain rfl : 5 = v := (Prod.mk.inj hv).2
  rw [hlist, hall] at hL
  exact ⟨r,hr,hL⟩

theorem deletions_go_on_sweepTurns : ∃ r r1 r2 r', exec (MixedCall.answers sweepTurns) St.freshWords = .done r ∧
    exec (bdelky none) r.2 = .done r1 ∧ exec Move.next.answer r1.2 = .done r2 ∧ r1.1 = 0 ∧
      (r2.1 = (0, some ([67], 0)) ↔ ¬ Frees r.2 (MixedCall.valuesAfter true (fun _ => []) sweepTurns) [66]) ∧
        exec (Move.next.sweep 23) r.2 = .done r' ∧
          r'.1 = sweptItems.map (fun y => (0, (0, some y))) ++ [(0, (QNOKEY, none))] ∧
            ∃ ν o, Entries r'.2 [0] ν 26 [([65],7),([65],8)] o := by
  obtain ⟨r,hr,hent⟩ := entries_sweepTurns
  have hrun : ((exec (MixedCall.answers sweepTurns) St.freshWords).result.bind fun r =>
      (exec (Move.next.sweep 23) r.2).result.map fun _ => Move.next.still 23 r.2) = some true := by
    decide +kernel
  have hstep : ((exec (MixedCall.answers sweepTurns) St.freshWords).result.bind fun r =>
      (exec (bdelky none) r.2).result.bind fun r1 => (exec Move.next.answer r1.2).result.map fun _ => ()) = some () := by
    decide +kernel
  rw [Prog.Outcome.result_eq_some.2 hr, Option.bind_some] at hrun hstep
  obtain ⟨r',hr',hstill⟩ := Option.map_eq_some_iff.1 hrun
  obtain ⟨r1,hr1,hstep⟩ := Option.bind_eq_some_iff.1 hstep
  obtain ⟨r2,hr2,-⟩ := Option.map_eq_some_iff.1 hstep
  have hr' := Prog.Outcome.result_eq_some.1 hr'
  have hr1 := Prog.Outcome.result_eq_some.1 hr1
  have hr2 := Prog.Outcome.result_eq_some.1 hr2
  have h := deletions_go_on sized_dups (by decide) hent (by decide +kernel) .next
  have hone := h.1 fun _ => .of_few (hent.few.mono (by decide)) (by decide)
  have hall := h.2 (Move.sweeps_of_still (by decide) (by decide) 23 hstill)
  change (exec (Move.next.sweep 23) r.2).Ends _ _ at hall
  rw [hr', Prog.Outcome.ends_done] at hall
  rw [hr1, Prog.Outcome.ends_done, hr2, Prog.Outcome.ends_done] at hone
  exact ⟨r,r1,r2,r',hr,hr1,hr2,hone.1,hone.2.1,hr',hall⟩

-- A key with one value more than a block of duplicates holds, and the position at that one.
def spillTurns : List MixedCall :=
  (List.range 19).map (fun i => .named (.insert [65] i)) ++ [.pos ZEND, .move .prev]

-- Once the value is deleted its block is free, and nothing is found from there.
theorem deletion_loses_place : ∃ r L l v a, exec (MixedCall.answers spillTurns) St.freshWords = .done r ∧
    Entries r.2 [0] (MixedCall.valuesAfter true (fun _ => []) spillTurns) 21 L (.place ⟨l,some ([65],v),a⟩) ∧
      (exec (do
        let code ← bdelky none
        let r ← Move.prev.answer
        return (code, r)) r.2).result.map Prod.fst = some (0, (QNOTDUP, none)) ∧
          (QNOTDUP, none) ≠ Move.reply (follow Move.prev.dir ⟨l,none,a⟩) := by
  have hmet : MixedCall.Met [0] true spillTurns St.freshWords fun _ => [] :=
    MixedCall.met_of_starts _ few_none (by decide +kernel) (by decide +kernel) (by decide +kernel)
  have h := MixedCall.ends_answers sized_dups (by decide) selects_freshWords spillTurns (by decide +kernel)
    (by decide +kernel) hmet
  have hrun : (exec (MixedCall.answers spillTurns) St.freshWords).result.map (fun r => (r.2.ctx.lf.lfexct,
      r.2.ctx.lf.lfkey, decide (r.2.ctx.lf.draddr = ZNULL))) = some (true, [65], false) := by
    decide +kernel
  have hlost : (exec (MixedCall.answers spillTurns) St.freshWords).result.bind (fun r => (exec (do
      let code ← bdelky none
      let r ← Move.prev.answer
      return (code, r)) r.2).result.map Prod.fst) = some (0, (QNOTDUP, none)) := by
    decide +kernel
  obtain ⟨r,hr,hval⟩ := Option.map_eq_some_iff.1 hrun
  have hans := (congrArg (Option.bind · _) hr).symm.trans hlost
  have hr := Prog.Outcome.result_eq_some.1 hr
  simp only [Prod.mk.injEq, decide_eq_false_iff_not] at hval
  obtain ⟨hexct,hkey,hdr⟩ := hval
  rw [hr, Prog.Outcome.ends_done] at h
  obtain ⟨o,ho⟩ := h
  obtain ⟨L,hL⟩ := ho.selects.entries
  obtain ⟨l,v,a,rfl,-⟩ := hL.selected hexct fun hno => hdr hno.1
  rw [hkey] at hL
  refine ⟨r,L,l,v,a,hr,hL,hans,fun hreply => ?_⟩
  cases hf : follow Move.prev.dir ⟨l,none,a⟩ with
  | none =>
      rw [hf] at hreply
      exact absurd (congrArg Prod.fst hreply) (by decide)
  | some y =>
      have hcode : QNOTDUP ≠ 0 := by decide
      rw [hf] at hreply
      exact hcode (congrArg Prod.fst hreply)

end Run

end Btlib
