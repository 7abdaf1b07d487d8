import Btlib.Cache.MarksKeptKeys

namespace Btlib

variable [Build] {strict : Prop} {k : Nat} {α β : Type} {c c' : Ctx} {B : Finset Int} {blk : Int}

section Marked

-- While `blk` is marked: `x` asks for slots only where there are some beside `blk`.
def Beside (strict : Prop) (blk : Int) (x : BT α) : Prop :=
  ∀ c B, Held c → Spare strict 1 (insert blk B) →
    Guarded strict x c B fun _ c' B' => Same c c' ∧ Fewer strict B B'

-- And in the end the mark is gone.
def Clears (strict : Prop) (blk : Int) (x : BT α) : Prop :=
  ∀ c B, Held c → Spare strict 1 (insert blk B) →
    Guarded strict x c B fun _ c' B' => Same c c' ∧ Fewer strict (B.erase blk) B'

variable {x : BT α} {f : α → BT β}

theorem Spare.beside (h : Spare strict 1 (insert blk B)) : Spare strict 1 B :=
  h.fewer fun _ => Finset.subset_insert blk B

theorem Spare.insert_fewer {B' : Finset Int} (h : Spare strict 1 (insert blk B)) (hf : Fewer strict B B') :
    Spare strict 1 (insert blk B') :=
  h.fewer fun hs => Finset.insert_subset_insert blk (hf hs)

theorem MarksKept.beside (h : MarksKept strict 1 x) : Beside strict blk x := fun c B hc hB => h c B hc hB.beside

theorem Beside.bind (hx : Beside strict blk x) (hf : ∀ a, Beside strict blk (f a)) :
    Beside strict blk (x >>= f) := by
  intro c B hc hB
  refine (hx c B hc hB).bind fun a c' B' h => ?_
  refine (hf a c' B' (hc.same h.1) (hB.insert_fewer h.2)).mono fun _ c'' B'' h' => ?_
  exact ⟨h.1.trans h'.1,h.2.trans h'.2⟩

theorem Beside.clears (hx : Beside strict blk x) (hf : ∀ a, Clears strict blk (f a)) :
    Clears strict blk (x >>= f) := by
  intro c B hc hB
  refine (hx c B hc hB).bind fun a c' B' h => ?_
  refine (hf a c' B' (hc.same h.1) (hB.insert_fewer h.2)).mono fun _ c'' B'' h' => ?_
  refine ⟨h.1.trans h'.1,fun hs => (h'.2 hs).trans (Finset.erase_subset_erase blk (h.2 hs))⟩

theorem Clears.bind (hx : Clears strict blk x) (hf : ∀ a, MarksKept strict 1 (f a)) :
    Clears strict blk (x >>= f) := by
  intro c B hc hB
  refine (hx c B hc hB).bind fun a c' B' h => ?_
  have hB' : Spare strict 1 B' :=
    hB.fewer fun hs => (h.2 hs).trans ((Finset.erase_subset _ _).trans (Finset.subset_insert _ _))
  refine (hf a c' B' (hc.same h.1) hB').mono fun _ c'' B'' h' => ?_
  exact ⟨h.1.trans h'.1,h.2.trans h'.2⟩

theorem clears_bsetbs : Clears strict blk (bsetbs blk false) := fun _ _ _ hB =>
  (guarded_bsetbs_false blk fun hs => Or.inr (hB.beside.slot Nat.one_pos hs)).mono
    fun _ _ _ h => ⟨h.1,h.2⟩

theorem beside_bcpybk (fblk ts fs n : Int) : Beside strict blk (bcpybk blk fblk ts fs n) :=
  fun _ _ hc hB => guarded_bcpybk hc (fun hs => hB.beside.slot Nat.one_pos hs)
    (fun hs => Or.inr (hB.slot Nat.one_pos hs)) ts fs n

theorem Clears.marksKept {f : Unit → BT α} (hk : 1 < k) (hf : ∀ a, Clears strict blk (f a)) :
    MarksKept strict k (bsetbs blk true >>= f) := by
  intro c B hc hB
  have hk0 : 0 < k := by omega
  refine (guarded_bsetbs_true blk fun hs => Or.inr (hB.slot hk0 hs)).bind fun a c1 B1 h1 => ?_
  have hins : insert blk B1 = insert blk B := by
    rcases h1.2 with rfl | rfl
    · exact Finset.insert_idem _ _
    · rfl
  refine (hf a c1 B1 (hc.same h1.1) fun hs => ?_).mono fun _ c2 B2 h2 => ⟨h1.1.trans h2.1,fun hs => ?_⟩
  · have := hB hs
    have := Finset.card_insert_le blk B
    rw [hins]
    omega
  · refine (h2.2 hs).trans ?_
    rcases h1.2 with rfl | rfl
    · exact Finset.erase_insert_subset _ _
    · exact Finset.erase_subset _ _

end Marked

section Delete

@[simp] theorem marksKept_bjoin (hk : 1 < k) (lblk rblk : Int) (ke : KeyEnt) :
    MarksKept strict k (bjoin lblk rblk ke) := by
  have hk0 : 0 < k := by omega
  refine .bind .get fun _ => .bind (marksKept_bremky hk0 _ _) fun _ => Clears.marksKept hk fun _ => ?_
  refine Beside.clears (marksKept_bputky Nat.one_pos _ _ _ _).beside fun _ => ?_
  refine Beside.clears (marksKept_bgtinf Nat.one_pos _ _).beside fun _ => ?_
  refine Beside.clears (marksKept_bgtinf Nat.one_pos _ _).beside fun _ => ?_
  refine Beside.clears (beside_bcpybk _ _ _ _) fun _ => ?_
  refine Beside.clears (marksKept_bstinf Nat.one_pos _ _ _).beside fun _ => ?_
  exact Beside.clears (marksKept_bmkfre Nat.one_pos _).beside fun _ => clears_bsetbs

@[simp] theorem marksKept_setPos (f : Int → Int) : MarksKept strict k (setPos f) := .setLf _

@[simp] theorem marksKept_bsrhlf (hk : 0 < k) : MarksKept strict k bsrhlf := by
  unfold bsrhlf
  with_reducible repeat' first | refine .bind ?_ fun _ => ?_ | refine .ite ?_ ?_ | split
  all_goals simp [hk]

@[simp] theorem marksKept_pushParent (cblk : Int) : MarksKept strict k (pushParent cblk) := by
  unfold pushParent
  with_reducible repeat' first | refine .bind ?_ fun _ => ?_ | refine .ite ?_ ?_ | split
  all_goals simp

@[simp] theorem marksKept_joinLeft (hk : 1 < k) (cblk cnkeys : Int) :
    MarksKept strict k (bjnblk.joinLeft cblk cnkeys) := by
  unfold bjnblk.joinLeft
  with_reducible repeat' first | refine .bind ?_ fun _ => ?_ | refine .ite ?_ ?_ | split
  all_goals simp [hk, Nat.zero_lt_of_lt hk]

@[simp] theorem marksKept_bjnblk (hk : 1 < k) : MarksKept strict k bjnblk := by
  unfold bjnblk
  with_reducible repeat' first | refine .bind ?_ fun _ => ?_ | refine .ite ?_ ?_ | split
  all_goals simp [hk, Nat.zero_lt_of_lt hk]

@[simp] theorem marksKept_moveKeys (hk : 0 < k) (fblk tblk dir : Int) (n : Nat) (keypos : Int) :
    MarksKept strict k (moveKeys fblk tblk dir n keypos) := by
  induction n generalizing keypos with
  | zero => exact .pure _
  | succ n ih =>
      unfold moveKeys
      with_reducible repeat' first | refine .bind ?_ fun _ => ?_ | refine .ite ?_ ?_ | split
      all_goals simp [hk, ih]

@[simp] theorem marksKept_balbk1Move (hk : 0 < k) (lblk rblk fblk tblk dir : Int) (half : Nat)
    (keypos : Int) (ke : KeyEnt) :
    MarksKept strict k (balbk1Move lblk rblk fblk tblk dir half keypos ke) := by
  unfold balbk1Move
  with_reducible repeat' first | refine .bind ?_ fun _ => ?_ | refine .ite ?_ ?_ | split
  all_goals simp [hk]

@[simp] theorem marksKept_balbk1 (hk : 0 < k) (lblk rblk diff : Int) (ke : KeyEnt) :
    MarksKept strict k (balbk1 lblk rblk diff ke) := by
  unfold balbk1
  with_reducible repeat' first | refine .bind ?_ fun _ => ?_ | refine .ite ?_ ?_ | split
  all_goals simp [hk]

@[simp] theorem marksKept_balLeft (hk : 0 < k) (cblk cnkeys : Int) :
    MarksKept strict k (balblk.balLeft cblk cnkeys) := by
  unfold balblk.balLeft
  with_reducible repeat' first | refine .bind ?_ fun _ => ?_ | refine .ite ?_ ?_ | split
  all_goals simp [hk]

@[simp] theorem marksKept_balblk (hk : 0 < k) : MarksKept strict k balblk := by
  unfold balblk
  with_reducible repeat' first | refine .bind ?_ fun _ => ?_ | refine .ite ?_ ?_ | split
  all_goals simp [hk]

@[simp] theorem marksKept_bdemteParent (hk : 1 < k) (cblk : Int) : MarksKept strict k (bdemteParent cblk) := by
  have hk0 : 0 < k := by omega
  unfold bdemteParent
  with_reducible repeat' first
    | refine Clears.marksKept hk fun _ => ?_
    | refine MarksKept.bind ?_ fun _ => ?_
    | refine MarksKept.ite ?_ ?_
    | split
  all_goals try simp [hk, hk0]
  all_goals
    refine Beside.clears (beside_bcpybk _ _ _ _) fun _ => ?_
    refine Beside.clears (marksKept_bstinf Nat.one_pos _ _ _).beside fun _ => ?_
    refine clears_bsetbs.bind fun _ => .bind .get fun _ => ?_
    exact .bind (marksKept_bputky Nat.one_pos _ _ _ _) fun _ => (marksKept_bmkfre Nat.one_pos _).map _

@[simp] theorem marksKept_bdemte (hk : 1 < k) (cblk : Int) : MarksKept strict k (bdemte cblk) := by
  unfold bdemte
  with_reducible repeat' first | refine .bind ?_ fun _ => ?_ | refine .ite ?_ ?_ | split
  all_goals simp [hk, Nat.zero_lt_of_lt hk]

@[simp] theorem marksKept_bdemteLoop (hk : 1 < k) (n : Nat) (cblk : Int) :
    MarksKept strict k (bdemteLoop n cblk) := by
  induction n generalizing cblk with
  | zero => exact .hang
  | succ n ih =>
      unfold bdemteLoop
      with_reducible repeat' first | refine .bind ?_ fun _ => ?_ | refine .ite ?_ ?_ | split
      all_goals simp [hk, ih]

@[simp] theorem marksKept_replaceByLast (hk : 0 < k) (blk pos : Int) (r : Srh) :
    MarksKept strict k (replaceByLast blk pos r) := by
  unfold replaceByLast
  with_reducible repeat' first | refine .bind ?_ fun _ => ?_ | refine .ite ?_ ?_ | split
  all_goals simp [hk]

@[simp] theorem marksKept_mergeUp (hk : 1 < k) : MarksKept strict k mergeUp := by
  unfold mergeUp
  with_reducible repeat' first | refine .bind ?_ fun _ => ?_ | refine .ite ?_ ?_ | split
  all_goals simp [hk, Nat.zero_lt_of_lt hk]

@[simp] theorem marksKept_bdelk1Leaf (hk : 1 < k) : MarksKept strict k bdelk1Leaf := by
  unfold bdelk1Leaf
  with_reducible repeat' first | refine .bind ?_ fun _ => ?_ | refine .ite ?_ ?_ | split
  all_goals simp [hk, Nat.zero_lt_of_lt hk]

@[simp] theorem marksKept_bdelk1Key (hk : 1 < k) (key : Option Key) : MarksKept strict k (bdelk1Key key) := by
  unfold bdelk1Key
  with_reducible repeat' first | refine .bind ?_ fun _ => ?_ | refine .ite ?_ ?_ | split
  all_goals simp [hk, Nat.zero_lt_of_lt hk]

@[simp] theorem marksKept_bdelk1 (hk : 1 < k) (key : Option Key) : MarksKept strict k (bdelk1 key) := by
  unfold bdelk1
  with_reducible repeat' first | refine .bind ?_ fun _ => ?_ | refine .ite ?_ ?_ | split
  all_goals simp [hk, Nat.zero_lt_of_lt hk]

end Delete

end Btlib
