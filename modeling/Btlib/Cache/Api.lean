import Btlib.Cache.Calls
import Btlib.Source.World

namespace Btlib

variable [Build] {strict : Prop} {k : Nat} {α β : Type} {c c' : Ctx} {B : Finset Int}

section Walk

@[simp] theorem marksKept_takeKey (hk : 0 < k) (b : Block) (direction : Int) :
    MarksKept strict k (takeKey b direction) := by
  unfold takeKey
  with_reducible repeat' first | refine .bind ?_ fun _ => ?_ | refine .ite ?_ ?_ | split
  all_goals simp [hk]

@[simp] theorem marksKept_bnxtkyStep (hk : 0 < k) (b : Block) : MarksKept strict k (bnxtkyStep b) := by
  unfold bnxtkyStep
  with_reducible repeat' first | refine .bind ?_ fun _ => ?_ | refine .ite ?_ ?_ | split
  all_goals simp [hk]

@[simp] theorem marksKept_bnxtkyLoop (hk : 0 < k) (n : Nat) :
    MarksKept strict k (bnxtkyLoop n) := by
  induction n with
  | zero => exact .hang
  | succ n ih =>
      unfold bnxtkyLoop
      with_reducible repeat' first | refine .bind ?_ fun _ => ?_ | refine .ite ?_ ?_ | split
      all_goals simp [hk, ih]

@[simp] theorem marksKept_refind (hk : 1 < k) : MarksKept strict k refind := by
  unfold refind
  with_reducible repeat' first | refine .bind ?_ fun _ => ?_ | refine .ite ?_ ?_ | split
  all_goals simp [hk]

theorem marksKept_walk (hk : 1 < k) (direction : Int) {move : BT (Option (Key × Int))}
    (hmove : MarksKept strict k move) : MarksKept strict k (walk direction move) := by
  unfold walk
  with_reducible repeat' first | refine .bind ?_ fun _ => ?_ | refine .ite ?_ ?_ | split
  all_goals first | exact hmove | simp [hk, Nat.zero_lt_of_lt hk]

theorem marksKept_bnxtkyMove (hk : 1 < k) : MarksKept strict k (walk ZNEXT do
    let r ← bnxtkyLoop FUEL
    let lf := (← get).lf
    if lf.lfblk = ZNULL then
      bclrlf
      bterr "BNXTKY" QNOKEY .none
    pure r) := by
  refine marksKept_walk hk _ ?_
  with_reducible repeat' first | refine .bind ?_ fun _ => ?_ | refine .ite ?_ ?_ | split
  all_goals simp [Nat.zero_lt_of_lt hk]

@[simp] theorem marksKept_bnxtky (hk : 1 < k) : MarksKept strict k bnxtky :=
  marksKept_api _ _ (marksKept_withErr (marksKept_locked _ _ (marksKept_bnxtkyMove hk)))

@[simp] theorem marksKept_bprvkyStep (hk : 0 < k) (nkeys : Int) (b : Block) :
    MarksKept strict k (bprvkyStep nkeys b) := by
  unfold bprvkyStep
  with_reducible repeat' first | refine .bind ?_ fun _ => ?_ | refine .ite ?_ ?_ | split
  all_goals simp [hk]

@[simp] theorem marksKept_bprvkyLoop (hk : 0 < k) (n : Nat) :
    MarksKept strict k (bprvkyLoop n) := by
  induction n with
  | zero => exact .hang
  | succ n ih =>
      unfold bprvkyLoop
      with_reducible repeat' first | refine .bind ?_ fun _ => ?_ | refine .ite ?_ ?_ | split
      all_goals simp [hk, ih]

theorem marksKept_bprvkyMove (hk : 1 < k) : MarksKept strict k (walk ZPREV do
    let r ← bprvkyLoop FUEL
    let lf := (← get).lf
    if lf.lfblk = ZNULL then bterr "BPRVKY" QNOKEY .none
    pure r) := by
  refine marksKept_walk hk _ ?_
  with_reducible repeat' first | refine .bind ?_ fun _ => ?_ | refine .ite ?_ ?_ | split
  all_goals simp [Nat.zero_lt_of_lt hk]

@[simp] theorem marksKept_bprvky (hk : 1 < k) : MarksKept strict k bprvky :=
  marksKept_api _ _ (marksKept_withErr (marksKept_locked _ _ (marksKept_bprvkyMove hk)))

@[simp] theorem marksKept_btposEnd (hk : 0 < k) : MarksKept strict k btposEnd := by
  unfold btposEnd
  with_reducible repeat' first | refine .bind ?_ fun _ => ?_ | refine .ite ?_ ?_ | split
  all_goals simp [hk]

end Walk

section Outer

-- On an open handle `x` leaves the locks as `g` says, and only the current root busy.
def Counts (strict : Prop) (x : BT α) (g : Ctx → Ctx) : Prop :=
  ∀ c B, c.isopen = true → 0 ≤ c.lckcnt → Calm strict c B → (strict → 3 ≤ ZMXBLK) →
    Guarded strict x c B fun _ c' B' => Steady (g c) c' ∧ Calm strict c' B'

def Respects (g : Ctx → Ctx) : Prop := ∀ c c', Same c c' → Steady (g c) (g c')

omit [Build] in
theorem respects_id : Respects id := fun _ _ h => h.steady

variable {x : BT α} {f : α → BT β} {g : Ctx → Ctx}

theorem Counts.bind_idle (hx : Counts strict x g) (hf : ∀ a, Idle strict (f a)) :
    Counts strict (x >>= f) g := by
  intro c B ho h0 hB hs
  refine (hx c B ho h0 hB hs).bind fun a c1 B1 h1 => ?_
  exact ((hf a).calm h1.2).mono fun _ _ _ h => ⟨h1.1.trans h.1.steady,h.2⟩

theorem Counts.api (hx : Counts strict x g) (hg : Respects g) (fn : String) (bad : Int → α) :
    Counts strict (api fn bad x) g := by
  intro c B ho h0 hB hs
  refine guarded_api (fun _ _ h => ?_) fun _ => ?_
  · rw [ho] at h
    cases h
  · have hclear : Same c { c with err := ⟨"", 0, .none⟩ } := ⟨rfl,rfl,rfl,rfl,rfl⟩
    have hB' : Calm strict { c with err := ⟨"", 0, .none⟩ } B := fun h => hB h
    exact (hx { c with err := ⟨"", 0, .none⟩ } B ho h0 hB' hs).mono fun _ _ _ h =>
      ⟨(hg _ _ hclear).trans h.1,h.2⟩

theorem Counts.errOf {x : BT Unit} (hx : Counts strict x g) : Counts strict (errOf x) g :=
  hx.bind_idle fun _ => idle_btgerr

theorem Counts.withErr (hx : Counts strict x g) : Counts strict (withErr x) g :=
  hx.bind_idle fun _ => idle_btgerr.bind fun _ => idle_pure _

theorem counts_locked (fn : String) (busy : α) {body : BT α} (hbody : Calming strict body) :
    Counts strict (locked fn busy body) id := fun _ _ _ h0 hB hs =>
  guarded_session fn busy (fun c1 B1 h1 hB1 => hbody c1 B1 (.relock_same h0 h1) hB1)
    (fun a => idle_pure a) h0 hB hs

theorem counts_marksKept_locked (fn : String) (busy : α) {body : BT α} (hbody : MarksKept strict 2 body) :
    Counts strict (locked fn busy body) id := fun c B ho h0 hB hs =>
  counts_locked fn busy (hbody.calming hs) c B ho h0 hB hs

theorem counts_bfndky (key : Key) : Counts strict (bfndky key) id := by
  refine Counts.api (Counts.bind_idle (counts_marksKept_locked _ _ (marksKept_bfndkySearch Nat.one_lt_two key))
    fun _ => ?_) respects_id _ _
  split
  · exact (idle_bterr _ _ _).bind fun _ => idle_btgerr.bind fun _ => idle_pure _
  · exact idle_btgerr.bind fun _ => idle_pure _

theorem counts_binsky (key : Key) (val : Int) : Counts strict (binsky key val) id := by
  refine (counts_marksKept_locked _ _ ?_).errOf.api respects_id _ _
  with_reducible repeat' first | refine MarksKept.bind ?_ fun _ => ?_ | refine MarksKept.ite ?_ ?_ | split
  all_goals simp

theorem counts_bnxtky : Counts strict bnxtky id :=
  (counts_marksKept_locked _ _ (marksKept_bnxtkyMove Nat.one_lt_two)).withErr.api respects_id _ _

theorem counts_bprvky : Counts strict bprvky id :=
  (counts_marksKept_locked _ _ (marksKept_bprvkyMove Nat.one_lt_two)).withErr.api respects_id _ _

theorem guarded_fail_session (name : String) (code : Int) (arg : Arg) (hx : Idle strict x)
    (h0 : 0 ≤ c.lckcnt) (hB : Calm strict c B) (hs : strict → 3 ≤ ZMXBLK) :
    Guarded strict (do bterr name code arg; leave; x) c B fun _ c' B' =>
      Steady c.unlock c' ∧ Calm strict c' B' := by
  refine ((idle_bterr name code arg).calm hB).bind fun _ c1 B1 h1 => ?_
  refine (guarded_leave_outer (h1.1.lckcnt ▸ h0) h1.2 hs).bind fun _ c2 B2 h2 => ?_
  refine (hx.calm h2.1).mono fun _ _ _ h3 => ⟨?_,h3.2⟩
  exact (h1.1.steady.unlock.trans h2.2.steady).trans h3.1.steady

theorem guarded_fail_leave (name : String) (code : Int) (arg : Arg) (h0 : 0 ≤ c.lckcnt)
    (hB : Calm strict c B) (hs : strict → 3 ≤ ZMXBLK) :
    Guarded strict (do bterr name code arg; leave) c B fun _ c' B' =>
      Steady c.unlock c' ∧ Calm strict c' B' := by
  have h := guarded_fail_session name code arg (x := pure ()) (idle_pure ()) h0 hB hs
  simpa only [bind_pure_unit] using h

theorem guarded_marksKept_session (fn : String) (busy : α) {body : BT α} (hbody : MarksKept strict 2 body)
    (hf : ∀ a, Idle strict (f a)) (h0 : 0 ≤ c.lckcnt) (hB : Calm strict c B) (hs : strict → 3 ≤ ZMXBLK) :
    Guarded strict (do let r ← within fn busy body; leave; f r) c B fun _ c' B' =>
      Steady c c' ∧ Calm strict c' B' :=
  guarded_session fn busy (fun c1 B1 h1 hB1 => hbody.calming hs c1 B1 (.relock_same h0 h1) hB1) hf h0 hB hs

theorem guarded_session_leave (fn : String) {body : BT Unit} (hbody : MarksKept strict 2 body)
    (h0 : 0 ≤ c.lckcnt) (hB : Calm strict c B) (hs : strict → 3 ≤ ZMXBLK) :
    Guarded strict (do within fn () body; leave) c B fun _ c' B' => Steady c c' ∧ Calm strict c' B' := by
  have h := guarded_marksKept_session fn () hbody (f := fun _ => pure ()) (fun a => idle_pure a) h0 hB hs
  simpa only [bind_pure_unit] using h

theorem counts_modifyKey (fn : String) (key : Option Key) {body : BT Unit} (hbody : MarksKept strict 2 body) :
    Counts strict (modifyKey fn key body) fun c => if c.super.smode = 0 then c else c.unlock := by
  refine Counts.api (Counts.errOf fun c B _ h0 hB hs => ?_) (fun c c' h => ?_) _ _
  · refine guarded_bind (guarded_get.2 ?_)
    rw [guarded_ite]
    split
    · rename_i hw
      exact guarded_fail_leave _ _ _ h0 hB hs
    · rename_i hw
      rw [if_pos (not_not.1 hw)]
      refine guarded_session_leave fn ?_ h0 hB hs
      exact .bind (marksKept_findKey Nat.one_lt_two key) fun _ => .ite hbody (.pure _)
  · rw [h.mode]
    split
    · exact h.steady
    · exact h.steady.unlock

theorem counts_bupdky (key : Option Key) (val : Int) : Counts strict (bupdky key val)
    fun c => if c.super.smode = 0 then c else c.unlock :=
  counts_modifyKey _ _ (.bind .get fun _ => marksKept_bmodky Nat.two_pos _ _ _)

theorem counts_bdelky (key : Option Key) : Counts strict (bdelky key)
    fun c => if c.super.smode = 0 then c else c.unlock :=
  counts_modifyKey _ _ (marksKept_bdelk1 Nat.one_lt_two key)

omit [Build] in
theorem respects_data : Respects fun c => if c.super.scroot = ZSUPER then c.unlock else c := by
  intro c c' h
  simp only [h.root]
  split
  · exact h.steady.unlock
  · exact h.steady

theorem counts_btins (key : Key) (data : List Byte) (dsize : Int) :
    Counts strict (btins key data dsize) fun c => if c.super.scroot = ZSUPER then c.unlock else c := by
  have hk := Nat.one_lt_two
  refine Counts.api (Counts.errOf fun c B _ h0 hB hs => ?_) respects_data _ _
  refine guarded_bind (guarded_bind (guarded_get.2 (guarded_pure.2 ?_)))
  by_cases hd : c.super.scroot = ZSUPER
  · simp only [hd, ne_eq, not_true_eq_false, decide_false, Bool.false_eq_true, not_false_eq_true, if_true]
    exact guarded_fail_leave _ _ _ h0 hB hs
  · simp only [hd, ne_eq, not_false_eq_true, decide_true, not_true_eq_false, if_false]
    refine guarded_session_leave _ ?_ h0 hB hs
    unfold btinsPut
    with_reducible repeat' first | refine MarksKept.bind ?_ fun _ => ?_ | refine MarksKept.ite ?_ ?_ | split
    all_goals simp

theorem counts_btsel (key : Key) (dsize : Int) :
    Counts strict (btsel key dsize) fun c => if c.super.scroot = ZSUPER then c.unlock else c := by
  refine Counts.api (Counts.withErr fun c B _ h0 hB hs => ?_) respects_data _ _
  refine guarded_bind (guarded_bind (guarded_get.2 (guarded_pure.2 ?_)))
  by_cases hd : c.super.scroot = ZSUPER
  · simp only [hd, ne_eq, not_true_eq_false, decide_false, Bool.false_eq_true, not_false_eq_true, if_true]
    exact guarded_fail_session _ _ _ (idle_pure (0, [])) h0 hB hs
  · simp only [hd, ne_eq, not_false_eq_true, decide_true, not_true_eq_false, if_false]
    refine guarded_marksKept_session _ _ ?_ (fun a => idle_pure a) h0 hB hs
    unfold btselGet
    with_reducible repeat' first | refine MarksKept.bind ?_ fun _ => ?_ | refine MarksKept.ite ?_ ?_ | split
    all_goals simp

end Outer

end Btlib
