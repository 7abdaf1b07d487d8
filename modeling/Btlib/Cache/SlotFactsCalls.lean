import Btlib.Cache.SlotFactsData

namespace Btlib

variable [Build] {α : Type}

section Lock

omit [Build] in
theorem keepsFacts_alone {f : Ctx → BT α} (h : ∀ c, c.shared = false → KeepsFacts (f c)) : KeepsFacts (get >>= f) :=
  fun c t ht => h c ht.shared c t ht

@[simp] theorem keepsFacts_enter (fn : String) : KeepsFacts (enter fn) := by
  refine keepsFacts_alone fun c hc => ?_
  rw [hc]
  exact .pure _

@[simp] theorem keepsFacts_leave : KeepsFacts leave := by
  refine keepsFacts_alone fun c hc => ?_
  rw [hc]
  exact .pure _

theorem keepsFacts_within (fn : String) (busy : α) {body : BT α} (hbody : KeepsFacts body) :
    KeepsFacts (within fn busy body) := .bind (keepsFacts_enter fn) fun _ => .ite hbody (.pure _)

theorem keepsFacts_locked (fn : String) (busy : α) {body : BT α} (hbody : KeepsFacts body) :
    KeepsFacts (locked fn busy body) :=
  .bind (keepsFacts_within fn busy hbody) fun _ => .bind keepsFacts_leave fun _ => .pure _

omit [Build] in
theorem keepsFacts_api (fn : String) (bad : Int → α) {body : BT α} (hbody : KeepsFacts body) :
    KeepsFacts (api fn bad body) := by
  unfold api bvalap
  with_reducible repeat' first | refine .bind ?_ fun _ => ?_ | refine .ite ?_ ?_ | split
  all_goals first | exact hbody | simp

omit [Build] in
theorem keepsFacts_withErr {body : BT α} (hbody : KeepsFacts body) : KeepsFacts (withErr body) :=
  .bind hbody fun _ => .bind keepsFacts_btgerr fun _ => .pure _

omit [Build] in
theorem keepsFacts_errOf {body : BT Unit} (hbody : KeepsFacts body) : KeepsFacts (errOf body) :=
  .bind hbody fun _ => keepsFacts_btgerr

end Lock

section Keys

omit [Build] in
@[simp] theorem keepsFacts_pullParent : KeepsFacts pullParent := by
  unfold pullParent
  with_reducible repeat' first | refine .bind ?_ fun _ => ?_ | refine .ite ?_ ?_ | split
  all_goals simp

@[simp] theorem keepsFacts_bfndkyLoop (hcap : 3 ≤ ZMXKEY) (n : Nat) (cblk : Int) (o : Srh) :
    KeepsFacts (bfndkyLoop n cblk o) := by
  induction n generalizing cblk o with
  | zero => exact .hang
  | succ n ih =>
      unfold bfndkyLoop
      with_reducible repeat' first | refine .bind ?_ fun _ => ?_ | refine .ite ?_ ?_ | split
      all_goals simp [hcap, ih]

@[simp] theorem keepsFacts_bfndkySearch (hcap : 3 ≤ ZMXKEY) (key : Key) : KeepsFacts (bfndkySearch key) := by
  unfold bfndkySearch
  with_reducible repeat' first | refine .bind ?_ fun _ => ?_ | refine .ite ?_ ?_ | split
  all_goals simp [hcap]

@[simp] theorem keepsFacts_bfndky (hcap : 3 ≤ ZMXKEY) (key : Key) : KeepsFacts (bfndky key) := by
  refine keepsFacts_api _ _ (.bind (keepsFacts_locked _ _ (keepsFacts_bfndkySearch hcap key)) fun _ => ?_)
  with_reducible repeat' first | refine .bind ?_ fun _ => ?_ | refine .ite ?_ ?_ | split
  all_goals simp

@[simp] theorem keepsFacts_binskyPut (key : Key) (val : Int) (found : Bool) : KeepsFacts (binskyPut key val found) := by
  unfold binskyPut
  with_reducible repeat' first | refine .bind ?_ fun _ => ?_ | refine .ite ?_ ?_ | split
  all_goals simp

@[simp] theorem keepsFacts_binsky (hcap : 3 ≤ ZMXKEY) (key : Key) (val : Int) : KeepsFacts (binsky key val) := by
  refine keepsFacts_api _ _ (keepsFacts_errOf (keepsFacts_locked _ _ ?_))
  with_reducible repeat' first | refine .bind ?_ fun _ => ?_ | refine .ite ?_ ?_ | split
  all_goals simp [hcap]

@[simp] theorem keepsFacts_bmodky (blk loc val : Int) : KeepsFacts (bmodky blk loc val) := by
  refine .ite (keepsFacts_bterr _ _ _) (.bind (keepsFacts_btdupupd _) fun _ => .ite ?_ (.pure _))
  exact .read (keepsFacts_bterr _ _ _) fun _ => upon_wr Int.one_pos

theorem keepsFacts_modifyKey (hcap : 3 ≤ ZMXKEY) (fn : String) (key : Option Key) {body : BT Unit}
    (hbody : KeepsFacts body) : KeepsFacts (modifyKey fn key body) := by
  refine keepsFacts_api _ _ (keepsFacts_errOf (.bind .get fun _ => .ite (.bind (keepsFacts_bterr _ _ _) fun _ => keepsFacts_leave) ?_))
  refine .bind (keepsFacts_within _ _ (.bind ?_ fun _ => .ite hbody (.pure _))) fun _ => keepsFacts_leave
  cases key <;> simp [findKey, hcap]

theorem keepsFacts_bupdky (hcap : 3 ≤ ZMXKEY) (key : Option Key) (val : Int) : KeepsFacts (bupdky key val) :=
  keepsFacts_modifyKey hcap _ _ (.bind .get fun _ => keepsFacts_bmodky _ _ _)

end Keys

section Delete

omit [Build] in
@[simp] theorem keepsFacts_setPos (f : Int → Int) : KeepsFacts (setPos f) := .setLf _

omit [Build] in
@[simp] theorem keepsFacts_bsrhlf : KeepsFacts bsrhlf := by
  unfold bsrhlf
  with_reducible repeat' first | refine .bind ?_ fun _ => ?_ | refine .ite ?_ ?_ | split
  all_goals simp

omit [Build] in
@[simp] theorem keepsFacts_pushParent (cblk : Int) : KeepsFacts (pushParent cblk) := by
  unfold pushParent
  with_reducible repeat' first | refine .bind ?_ fun _ => ?_ | refine .ite ?_ ?_ | split
  all_goals simp

@[simp] theorem keepsFacts_bjoin (lblk rblk : Int) (ke : KeyEnt) : KeepsFacts (bjoin lblk rblk ke) := by
  unfold bjoin
  with_reducible repeat' first
    | refine .copied _ _ _ _ _ _ _ ?_
    | refine .bind ?_ fun _ => ?_
    | refine .ite ?_ ?_
    | split
  all_goals simp

@[simp] theorem keepsFacts_joinLeft (cblk cnkeys : Int) : KeepsFacts (bjnblk.joinLeft cblk cnkeys) := by
  unfold bjnblk.joinLeft
  with_reducible repeat' first | refine .bind ?_ fun _ => ?_ | refine .ite ?_ ?_ | split
  all_goals simp

@[simp] theorem keepsFacts_bjnblk : KeepsFacts bjnblk := by
  unfold bjnblk
  with_reducible repeat' first | refine .bind ?_ fun _ => ?_ | refine .ite ?_ ?_ | split
  all_goals simp

@[simp] theorem keepsFacts_moveKeys (fblk tblk dir : Int) (n : Nat) (keypos : Int) :
    KeepsFacts (moveKeys fblk tblk dir n keypos) := by
  induction n generalizing keypos with
  | zero => exact .pure _
  | succ n ih =>
      unfold moveKeys
      with_reducible repeat' first | refine .bind ?_ fun _ => ?_ | refine .ite ?_ ?_ | split
      all_goals simp [ih]

@[simp] theorem keepsFacts_balbk1Move (lblk rblk fblk tblk dir : Int) (half : Nat) (keypos : Int) (ke : KeyEnt) :
    KeepsFacts (balbk1Move lblk rblk fblk tblk dir half keypos ke) := by
  unfold balbk1Move
  with_reducible repeat' first | refine .bind ?_ fun _ => ?_ | refine .ite ?_ ?_ | split
  all_goals simp

@[simp] theorem keepsFacts_balbk1 (lblk rblk diff : Int) (ke : KeyEnt) : KeepsFacts (balbk1 lblk rblk diff ke) := by
  unfold balbk1
  with_reducible repeat' first | refine .bind ?_ fun _ => ?_ | refine .ite ?_ ?_ | split
  all_goals simp

@[simp] theorem keepsFacts_balLeft (cblk cnkeys : Int) : KeepsFacts (balblk.balLeft cblk cnkeys) := by
  unfold balblk.balLeft
  with_reducible repeat' first | refine .bind ?_ fun _ => ?_ | refine .ite ?_ ?_ | split
  all_goals simp

@[simp] theorem keepsFacts_balblk : KeepsFacts balblk := by
  unfold balblk
  with_reducible repeat' first | refine .bind ?_ fun _ => ?_ | refine .ite ?_ ?_ | split
  all_goals simp

@[simp] theorem keepsFacts_bdemteParent (hcap : 3 ≤ ZMXKEY) (cblk : Int) : KeepsFacts (bdemteParent cblk) := by
  unfold bdemteParent
  with_reducible repeat' first
    | refine .copied _ _ _ _ _ _ _ ?_
    | refine .bind ?_ fun _ => ?_
    | refine .ite ?_ ?_
    | split
  all_goals simp [hcap]

@[simp] theorem keepsFacts_bdemte (hcap : 3 ≤ ZMXKEY) (cblk : Int) : KeepsFacts (bdemte cblk) := by
  unfold bdemte
  with_reducible repeat' first
    | refine .copied _ _ _ _ _ _ _ ?_
    | refine .bind ?_ fun _ => ?_
    | refine .ite ?_ ?_
    | split
  all_goals simp [hcap]

@[simp] theorem keepsFacts_bdemteLoop (hcap : 3 ≤ ZMXKEY) (n : Nat) (cblk : Int) : KeepsFacts (bdemteLoop n cblk) := by
  induction n generalizing cblk with
  | zero => exact .hang
  | succ n ih =>
      unfold bdemteLoop
      with_reducible repeat' first | refine .bind ?_ fun _ => ?_ | refine .ite ?_ ?_ | split
      all_goals simp [hcap, ih]

@[simp] theorem keepsFacts_replaceByLast (blk pos : Int) (r : Srh) : KeepsFacts (replaceByLast blk pos r) := by
  unfold replaceByLast
  with_reducible repeat' first | refine .bind ?_ fun _ => ?_ | refine .ite ?_ ?_ | split
  all_goals simp

@[simp] theorem keepsFacts_mergeUp (hcap : 3 ≤ ZMXKEY) : KeepsFacts mergeUp := by
  unfold mergeUp
  with_reducible repeat' first | refine .bind ?_ fun _ => ?_ | refine .ite ?_ ?_ | split
  all_goals simp [hcap]

@[simp] theorem keepsFacts_bdelk1Leaf (hcap : 3 ≤ ZMXKEY) : KeepsFacts bdelk1Leaf := by
  unfold bdelk1Leaf
  with_reducible repeat' first | refine .bind ?_ fun _ => ?_ | refine .ite ?_ ?_ | split
  all_goals simp [hcap]

@[simp] theorem keepsFacts_bdelk1Key (hcap : 3 ≤ ZMXKEY) (key : Option Key) : KeepsFacts (bdelk1Key key) := by
  unfold bdelk1Key
  with_reducible repeat' first | refine .bind ?_ fun _ => ?_ | refine .ite ?_ ?_ | split
  all_goals simp [hcap]

@[simp] theorem keepsFacts_bdelk1 (hcap : 3 ≤ ZMXKEY) (key : Option Key) : KeepsFacts (bdelk1 key) := by
  unfold bdelk1
  with_reducible repeat' first | refine .bind ?_ fun _ => ?_ | refine .ite ?_ ?_ | split
  all_goals simp [hcap]

@[simp] theorem keepsFacts_bdelky (hcap : 3 ≤ ZMXKEY) (key : Option Key) : KeepsFacts (bdelky key) :=
  keepsFacts_modifyKey hcap _ _ (keepsFacts_bdelk1 hcap key)

end Delete

section Walks

@[simp] theorem keepsFacts_takeKey (b : Block) (direction : Int) : KeepsFacts (takeKey b direction) := by
  unfold takeKey
  with_reducible repeat' first | refine .bind ?_ fun _ => ?_ | refine .ite ?_ ?_ | split
  all_goals simp

@[simp] theorem keepsFacts_bnxtkyStep (b : Block) : KeepsFacts (bnxtkyStep b) := by
  unfold bnxtkyStep
  with_reducible repeat' first | refine .bind ?_ fun _ => ?_ | refine .ite ?_ ?_ | split
  all_goals simp

@[simp] theorem keepsFacts_bnxtkyLoop (n : Nat) : KeepsFacts (bnxtkyLoop n) := by
  induction n with
  | zero => exact .hang
  | succ n ih =>
      unfold bnxtkyLoop
      with_reducible repeat' first | refine .bind ?_ fun _ => ?_ | refine .ite ?_ ?_ | split
      all_goals simp [ih]

@[simp] theorem keepsFacts_refind (hcap : 3 ≤ ZMXKEY) : KeepsFacts refind := by
  unfold refind
  with_reducible repeat' first | refine .bind ?_ fun _ => ?_ | refine .ite ?_ ?_ | split
  all_goals simp [hcap]

theorem keepsFacts_walk (hcap : 3 ≤ ZMXKEY) (direction : Int) {move : BT (Option (Key × Int))} (hmove : KeepsFacts move) :
    KeepsFacts (walk direction move) := by
  unfold walk
  with_reducible repeat' first | refine .bind ?_ fun _ => ?_ | refine .ite ?_ ?_ | split
  all_goals first | exact hmove | simp [hcap]

theorem keepsFacts_bnxtky (hcap : 3 ≤ ZMXKEY) : KeepsFacts bnxtky := by
  refine keepsFacts_api _ _ (keepsFacts_withErr (keepsFacts_locked _ _ (keepsFacts_walk hcap _ ?_)))
  with_reducible repeat' first | refine .bind ?_ fun _ => ?_ | refine .ite ?_ ?_ | split
  all_goals simp

@[simp] theorem keepsFacts_bprvkyStep (nkeys : Int) (b : Block) : KeepsFacts (bprvkyStep nkeys b) := by
  unfold bprvkyStep
  with_reducible repeat' first | refine .bind ?_ fun _ => ?_ | refine .ite ?_ ?_ | split
  all_goals simp

@[simp] theorem keepsFacts_bprvkyLoop (n : Nat) : KeepsFacts (bprvkyLoop n) := by
  induction n with
  | zero => exact .hang
  | succ n ih =>
      unfold bprvkyLoop
      with_reducible repeat' first | refine .bind ?_ fun _ => ?_ | refine .ite ?_ ?_ | split
      all_goals simp [ih]

theorem keepsFacts_bprvky (hcap : 3 ≤ ZMXKEY) : KeepsFacts bprvky := by
  refine keepsFacts_api _ _ (keepsFacts_withErr (keepsFacts_locked _ _ (keepsFacts_walk hcap _ ?_)))
  with_reducible repeat' first | refine .bind ?_ fun _ => ?_ | refine .ite ?_ ?_ | split
  all_goals simp

@[simp] theorem keepsFacts_btposEnd : KeepsFacts btposEnd := by
  unfold btposEnd
  with_reducible repeat' first | refine .bind ?_ fun _ => ?_ | refine .ite ?_ ?_ | split
  all_goals simp

theorem keepsFacts_btpos (pos : Int) : KeepsFacts (btpos pos) := by
  refine keepsFacts_api _ _ ?_
  unfold btposAt
  with_reducible repeat' first | refine .bind ?_ fun _ => ?_ | refine .ite ?_ ?_ | split
  all_goals simp

end Walks

section Records

omit [Build] in
@[simp] theorem keepsFacts_context_ok (fn : String) : KeepsFacts (context_ok fn) := by
  unfold context_ok
  with_reducible repeat' first | refine .bind ?_ fun _ => ?_ | refine .ite ?_ ?_ | split
  all_goals simp

@[simp] theorem keepsFacts_setupCurrent (fn : String) : KeepsFacts (setupCurrent fn) := by
  refine keepsFacts_alone fun c hc => ?_
  simp only [hc, Bool.false_eq_true, if_false]
  with_reducible repeat' first | refine .bind ?_ fun _ => ?_ | refine .ite ?_ ?_ | split
  all_goals simp

@[simp] theorem keepsFacts_setup (hcap : 3 ≤ ZMXKEY) (fn : String) (key : Option Key) : KeepsFacts (setup fn key) := by
  refine keepsFacts_withErr ?_
  unfold setupNamed
  with_reducible repeat' first
    | refine keepsFacts_within _ _ ?_
    | refine .bind ?_ fun _ => ?_
    | refine .ite ?_ ?_
    | split
  all_goals simp [hcap]

@[simp] theorem keepsFacts_btinsPut (hcap : 3 ≤ ZMXKEY) (key : Key) (data : List Byte) : KeepsFacts (btinsPut key data) := by
  unfold btinsPut
  with_reducible repeat' first | refine .bind ?_ fun _ => ?_ | refine .ite ?_ ?_ | split
  all_goals simp [hcap]

theorem keepsFacts_btins (hcap : 3 ≤ ZMXKEY) (key : Key) (data : List Byte) (dsize : Int) :
    KeepsFacts (btins key data dsize) := by
  refine keepsFacts_api _ _ (keepsFacts_errOf ?_)
  with_reducible repeat' first
    | refine keepsFacts_within _ _ ?_
    | refine .bind ?_ fun _ => ?_
    | refine .ite ?_ ?_
    | split
  all_goals simp [hcap]

theorem keepsFacts_btupd (hcap : 3 ≤ ZMXKEY) (key : Option Key) (data : List Byte) (dsize : Int) :
    KeepsFacts (btupd key data dsize) := by
  refine keepsFacts_api _ _ ?_
  with_reducible repeat' first | refine .bind ?_ fun _ => ?_ | refine .ite ?_ ?_ | split
  all_goals simp [hcap]

@[simp] theorem keepsFacts_btselGet (hcap : 3 ≤ ZMXKEY) (key : Key) (dsize : Int) : KeepsFacts (btselGet key dsize) := by
  unfold btselGet
  with_reducible repeat' first | refine .bind ?_ fun _ => ?_ | refine .ite ?_ ?_ | split
  all_goals simp [hcap]

theorem keepsFacts_btsel (hcap : 3 ≤ ZMXKEY) (key : Key) (dsize : Int) : KeepsFacts (btsel key dsize) := by
  refine keepsFacts_api _ _ (keepsFacts_withErr ?_)
  with_reducible repeat' first
    | refine keepsFacts_within _ _ ?_
    | refine .bind ?_ fun _ => ?_
    | refine .ite ?_ ?_
    | split
  all_goals simp [hcap]

theorem keepsFacts_btdel (hcap : 3 ≤ ZMXKEY) (key : Option Key) : KeepsFacts (btdel key) := by
  refine keepsFacts_api _ _ (keepsFacts_errOf ?_)
  unfold btdelRecord
  with_reducible repeat' first | refine .bind ?_ fun _ => ?_ | refine .ite ?_ ?_ | split
  all_goals simp [hcap]

theorem keepsFacts_btrecs (hcap : 3 ≤ ZMXKEY) (key : Option Key) : KeepsFacts (btrecs key) := by
  refine keepsFacts_api _ _ (keepsFacts_withErr ?_)
  with_reducible repeat' first | refine .bind ?_ fun _ => ?_ | refine .ite ?_ ?_ | split
  all_goals simp [hcap]

theorem keepsFacts_btdups (dups : Int) : KeepsFacts (btdups dups) := by
  refine keepsFacts_api _ _ (keepsFacts_errOf ?_)
  with_reducible repeat' first | refine .bind ?_ fun _ => ?_ | refine .ite ?_ ?_ | split
  all_goals simp

end Records

section Close

variable {x : BT α} {β : Type} {f : α → BT β} {c : Ctx} {t : SlotFacts} {blk : Int}

-- `blk` is the only block that may not be written out.
structure Soiled (blk : Int) (c : Ctx) (t : SlotFacts) : Prop where
  lone : Lone c t
  only : ∃ D, t.dirty = some D ∧ D ⊆ {blk}

def Soils (blk : Int) (x : BT α) : Prop := ∀ c t, Soiled blk c t → Minds x c t fun _ c' t' => Soiled blk c' t'

omit [Build] in
theorem Soils.bind (hx : Soils blk x) (hf : ∀ a, Soils blk (f a)) : Soils blk (x >>= f) := fun c t ht =>
  (hx c t ht).bind fun a c' t' h => hf a c' t' h

omit [Build] in
theorem soils_brdblk (b : Int) : Soils blk (brdblk b) := fun c t ht =>
  (minds_brdblk (Or.inl ht.lone.counted)).mono fun _ _ _ h => by
    obtain ⟨rfl,rfl,-⟩ := h
    exact ⟨⟨ht.lone.shared,ht.lone.size,ht.lone.counted,ht.lone.told⟩,ht.only⟩

omit [Build] in
theorem soils_bterr (name : String) (code : Int) (arg : Arg) : Soils blk (bterr name code arg) := fun _ _ ht =>
  minds_ask_bind.2 ⟨trivial,fun _ _ => ⟨⟨ht.lone.shared,ht.lone.size,ht.lone.counted,ht.lone.told⟩,ht.only⟩⟩

theorem soils_bgtinf (b : Int) (type : Inf) : Soils blk (bgtinf b type) := by
  refine .bind (soils_brdblk b) fun r => ?_
  cases r with
  | none => exact .bind (soils_bterr _ _ _) fun _ => fun _ _ h => h
  | some _ => exact fun _ _ h => h

theorem soils_bsetbk (type misc nxblk nkeys nblks dupblk : Int) :
    Soils blk (bsetbk blk type misc nxblk nkeys nblks dupblk) := by
  intro c t ht
  refine (minds_brdblk (Or.inl ht.lone.counted)).bind fun r c1 t1 h1 => ?_
  obtain ⟨rfl,rfl,-⟩ := h1
  cases r with
  | none => exact soils_bterr _ _ _ _ _ ⟨⟨ht.lone.shared,ht.lone.size,ht.lone.counted,ht.lone.told⟩,ht.only⟩
  | some b =>
      refine Minds.bind (minds_bstinf blk .ZBTYPE type rfl) fun _ c2 t2 h2 => ?_
      obtain ⟨rfl,rfl⟩ := h2
      refine Minds.mono (minds_wr rfl Int.one_pos) fun _ c3 t3 h3 => ?_
      obtain ⟨rfl,rfl⟩ := h3
      obtain ⟨D,hD,hsub⟩ := ht.only
      refine ⟨⟨ht.lone.shared,ht.lone.size,rfl,ht.lone.told⟩,insert blk (insert blk D),by simp [hD],?_⟩
      exact Finset.insert_subset (Finset.mem_singleton_self _) (Finset.insert_subset (Finset.mem_singleton_self _) hsub)

theorem minds_bwrsup (ht : Lone c t) (hd : t.dirty = some ∅) : Minds bwrsup c t fun _ c' t' =>
    Lone c' t' ∧ t'.dirty = some ∅ := by
  have hbterr : ∀ {name code arg} {c' : Ctx} {t' : SlotFacts}, Lone c' t' → t'.dirty = some ∅ →
      Minds (do bterr name code arg; return false) c' t' fun _ c' t' => Lone c' t' ∧ t'.dirty = some ∅ :=
    fun h hd => minds_ask_bind.2 ⟨trivial,fun _ _ => ⟨⟨h.shared,h.size,h.counted,h.told⟩,hd⟩⟩
  refine (minds_brdblk (Or.inl ht.counted)).bind fun r c1 t1 h1 => ?_
  obtain ⟨rfl,rfl,-⟩ := h1
  have h1 : Lone c1 { t with last := if r = none then none else some ZSUPER } := ⟨ht.shared,ht.size,ht.counted,ht.told⟩
  cases r with
  | none => exact hbterr h1 hd
  | some _ =>
      have hsoiled : Soiled ZSUPER c1 _ := ⟨h1,∅,hd,Finset.empty_subset _⟩
      refine Minds.bind (soils_bgtinf _ _ c1 _ hsoiled) fun nkeys c2 t2 h2 => minds_get_bind.2 ?_
      refine (soils_bsetbk _ _ _ _ _ _ c2 t2 h2).bind fun _ c3 t3 h3 => ?_
      refine minds_ask_bind.2 ⟨h3.lone.counted,fun (ok : Bool) _ => ?_⟩
      obtain ⟨D,hD,hsub⟩ := h3.only
      have hclean : (slotFacts.next (.wrblk ZSUPER) t3 ok).dirty = some ∅ := by
        have : D.erase ZSUPER = ∅ := by
          rw [← Finset.subset_empty, ← Finset.erase_singleton ZSUPER]
          exact Finset.erase_subset_erase _ hsub
        simp [slotFacts, hD, this]
      have hlone : Lone c3 (slotFacts.next (.wrblk ZSUPER) t3 ok) := ⟨h3.lone.shared,h3.lone.size,h3.lone.counted,h3.lone.told⟩
      cases ok with
      | true => exact ⟨hlone,hclean⟩
      | false => exact hbterr hlone hclean

omit [Build] in
theorem Lone.of_none (hs : c.shared = false) (hb : c.super.sblkmx = t.size) (hc : t.counted = true) (hn : t.told = none) :
    Lone c t := ⟨hs,hb,hc,fun p hp => by rw [hn] at hp; cases hp⟩

-- Whatever else becomes of it, a handle that is synchronised has all its slots written out.
theorem minds_btsync (ht : Lone c t) (hn : t.told = none) : Minds btsync c t fun _ c' t' =>
    Lone c' t' ∧ t'.dirty = some ∅ := by
  refine minds_ask_bind.2 ⟨⟨ht.counted,hn⟩,fun (ok : Bool) _ => ?_⟩
  have hlone : Lone c (slotFacts.next .wrall t ok) := ⟨ht.shared,ht.size,ht.counted,ht.told⟩
  have hclear : ∀ {c' t'}, Lone c' t' → t'.dirty = some ∅ →
      Minds (do ask .initcntrl; btgerr) c' t' fun _ c' t' => Lone c' t' ∧ t'.dirty = some ∅ :=
    fun h hd => minds_ask_bind.2 ⟨⟨h.counted,hd⟩,fun _ _ => ⟨⟨h.shared,h.size,h.counted,h.told⟩,hd⟩⟩
  cases ok with
  | false => exact minds_ask_bind.2 ⟨trivial,fun _ _ => ⟨⟨ht.shared,ht.size,ht.counted,ht.told⟩,rfl⟩⟩
  | true =>
      rw [minds_ite, if_pos rfl]
      refine minds_get_bind.2 ?_
      rw [minds_ite]
      split
      · refine (minds_bwrsup hlone rfl).told.bind fun r c1 t1 h1 => ?_
        obtain ⟨h1,htold⟩ := h1
        rw [minds_ite]
        split
        · have hnew : Lone { c1 with super := { c1.super with smod := 0 } } t1 :=
            .of_none h1.1.shared h1.1.size h1.1.counted (htold.trans hn)
          exact hclear hnew h1.2
        · exact h1
      · exact hclear hlone rfl

omit [Build] in
@[simp] theorem keepsFacts_lckcnt (g : Ctx → Int) :
    KeepsFacts (modify fun c => { c with lckcnt := g c } : BT Unit) := .modify (fun _ => rfl) fun _ => rfl

omit [Build] in
theorem keepsFacts_unlock : KeepsFacts (ask .unlock) := .ask (fun _ _ => trivial) fun _ _ _ h => h

omit [Build] in
theorem keepsFacts_fclose : KeepsFacts (ask .fclose) := .ask (fun _ _ => trivial) fun _ _ _ h => h

-- What may be done to a handle of which nothing is told.
def Heeds (x : BT α) : Prop :=
  ∀ c t, Lone c t → t.told = none → Minds x c t fun _ c' t' => Lone c' t' ∧ t'.told = none

omit [Build] in
theorem KeepsFacts.heeds (h : KeepsFacts x) : Heeds x := fun c t ht hn =>
  (h c t ht).told.mono fun _ _ _ h => ⟨h.1,h.2.trans hn⟩

omit [Build] in
theorem Heeds.bind (hx : Heeds x) (hf : ∀ a, Heeds (f a)) : Heeds (x >>= f) := fun c t ht hn =>
  (hx c t ht hn).bind fun a c' t' h => hf a c' t' h.1 h.2

omit [Build] in
theorem Heeds.ite {p : Prop} [Decidable p] {y : BT α} (hx : Heeds x) (hy : Heeds y) : Heeds (if p then x else y) := by
  split
  · exact hx
  · exact hy

theorem heeds_btsync : Heeds btsync := fun _ _ ht hn =>
  (minds_btsync ht hn).told.mono fun _ _ _ h => ⟨h.1.1,h.2.trans hn⟩

theorem heeds_bulock : Heeds bulock := by
  unfold bulock
  with_reducible repeat' first
    | exact heeds_btsync
    | exact (keepsFacts_lckcnt _).heeds
    | exact keepsFacts_unlock.heeds
    | refine .bind ?_ fun _ => ?_
    | refine .ite ?_ ?_
    | split
  all_goals exact KeepsFacts.heeds (by simp)

theorem heeds_bulockLoop (n : Nat) : Heeds (bulockLoop n) := by
  induction n with
  | zero => exact KeepsFacts.hang.heeds
  | succ n ih => exact .bind KeepsFacts.get.heeds fun _ => .ite (.bind heeds_bulock fun _ => ih) (KeepsFacts.pure _).heeds

theorem heeds_btcls : Heeds btcls := by
  unfold btcls api bvalap
  with_reducible repeat' first
    | exact heeds_bulockLoop _
    | exact keepsFacts_fclose.heeds
    | refine .bind ?_ fun _ => ?_
    | refine .ite ?_ ?_
    | split
  all_goals refine KeepsFacts.heeds ?_
  all_goals first | exact .modify (fun _ => rfl) fun _ => rfl | simp

theorem minds_bulock (ht : Lone c t) (hn : t.told = none) (hl : c.lckcnt = 1) :
    Minds bulock c t fun _ c' t' => (Lone c' t' ∧ t'.dirty = some ∅) ∧ c'.lckcnt = 0 := by
  refine minds_get_bind.2 ?_
  rw [minds_ite, if_neg (by omega), minds_ite, if_pos hl]
  refine (minds_btsync ht hn).bind fun _ c1 t1 h1 => minds_ask_bind.2 ⟨trivial,fun (ok : Bool) _ => ?_⟩
  have hend : ∀ {c' t'}, Lone c' t' ∧ t'.dirty = some ∅ → Minds (modify fun c => { c with lckcnt := 0 } : BT Unit) c' t'
      fun _ c' t' => (Lone c' t' ∧ t'.dirty = some ∅) ∧ c'.lckcnt = 0 :=
    fun h => ⟨⟨⟨h.1.shared,h.1.size,h.1.counted,h.1.told⟩,h.2⟩,rfl⟩
  cases ok with
  | true => exact hend h1
  | false => exact minds_ask_bind.2 ⟨trivial,fun _ _ => hend ⟨⟨h1.1.shared,h1.1.size,h1.1.counted,h1.1.told⟩,h1.2⟩⟩

omit [Build] in
theorem api_of_open {fn : String} {bad : Int → α} {body : BT α} (ho : c.isopen = true) :
    api fn bad body c = body { c with err := ⟨"", 0, .none⟩ } := by
  obtain ⟨isopen,shared,lckcnt,wt,err,lf,stk,super,keyent⟩ := c
  cases ho
  rfl

omit [Build] in
theorem minds_api {fn : String} {bad : Int → α} {body : BT α} {Q : α → Ctx → SlotFacts → Prop} (ho : c.isopen = true) :
    Minds (api fn bad body) c t Q ↔ Minds body { c with err := ⟨"", 0, .none⟩ } t Q := by
  rw [Minds, api_of_open ho]
  rfl

-- Closing an exclusive handle writes all slots out.
theorem minds_btcls (ht : Lone c t) (hn : t.told = none) (ho : c.isopen = true) (hl : c.lckcnt = 1) :
    Minds btcls c t fun _ c' t' => Lone c' t' ∧ t'.dirty = some ∅ := by
  have hloop : ∀ n c t, Lone c t → t.told = none → c.lckcnt = 1 → Minds (bulockLoop n) c t fun _ c' t' =>
      Lone c' t' ∧ t'.dirty = some ∅ := by
    intro n c t ht hn hl
    cases n with
    | zero => trivial
    | succ n =>
        refine minds_get_bind.2 ?_
        rw [minds_ite, if_pos (by omega)]
        refine (minds_bulock ht hn hl).bind fun _ c1 t1 h1 => ?_
        cases n with
        | zero => trivial
        | succ n =>
            refine minds_get_bind.2 ?_
            rw [minds_ite, if_neg (by omega)]
            exact h1.1
  refine (minds_api ho).2 (Minds.bind (hloop FUEL _ t ⟨ht.shared,ht.size,ht.counted,ht.told⟩ hn hl) fun _ c1 t1 h1 => ?_)
  refine minds_ask_bind.2 ⟨trivial,fun (ok : Bool) _ => ?_⟩
  cases ok with
  | true => exact ⟨⟨h1.1.shared,h1.1.size,h1.1.counted,h1.1.told⟩,h1.2⟩
  | false => exact minds_ask_bind.2 ⟨trivial,fun _ _ => ⟨⟨h1.1.shared,h1.1.size,h1.1.counted,h1.1.told⟩,h1.2⟩⟩

end Close

end Btlib
