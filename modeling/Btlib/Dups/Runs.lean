import Btlib.Dups.Fifo
import Btlib.Mend.Calls

namespace Btlib

open Multiway Links

-- The named calls on the keys of a root with duplicates.
inductive DupCall where
  | insert (key : Key) (val : Int)
  | find (key : Key)
  | update (key : Key) (val : Int)
  | delete (key : Key)
deriving DecidableEq, Repr

section Calls

variable [Build] {m : Nat} {s s' : St} {fs D os : List Int} {nd : Int → Nat} {live : Finset (Int × Nat)}
  {ent : Int × Nat → DKey} {k : Key} {μ : Key → List Int} {keys : Nat}

namespace DupCall

def key : DupCall → Key
  | insert k _ => k
  | find k => k
  | update k _ => k
  | delete k => k

def answer : DupCall → BT (Int × Option Int)
  | insert k v => do return (← binsky k v, none)
  | find k => do
      let r ← bfndky k
      return (r.1, if r.1 = 0 then some r.2 else none)
  | update k v => do return (← bupdky (some k) v, none)
  | delete k => do return (← bdelky (some k), none)

def answers : List DupCall → BT (List (Int × Option Int))
  | [] => return []
  | c :: cs => do
      let a ← c.answer
      let as ← answers cs
      return a :: as

-- The same calls of lists of values; a key without values is not there.
def ofLists (μ : Key → List Int) : DupCall → (Int × Option Int) × (Key → List Int)
  | insert k v => ((0, none), Function.update μ (keycpy k) (μ (keycpy k) ++ [v]))
  | find k => ((if μ (keycpy k) = [] then QNOKEY else 0, (μ (keycpy k)).head?), μ)
  | update k v =>
      if μ (keycpy k) = [] then ((QNOKEY, none), μ)
      else ((0, none), Function.update μ (keycpy k) (v :: (μ (keycpy k)).tail))
  | delete k =>
      if μ (keycpy k) = [] then ((QNOKEY, none), μ)
      else ((0, none), Function.update μ (keycpy k) (μ (keycpy k)).tail)

-- On a root that allows no duplicates a key that is there takes no other value.
def ofRoot (dups : Bool) (μ : Key → List Int) : DupCall → (Int × Option Int) × (Key → List Int)
  | insert k v => if dups = false ∧ μ (keycpy k) ≠ [] then ((QDUP, none), μ) else (insert k v).ofLists μ
  | c => c.ofLists μ

def ofRun (μ : Key → List Int) : List DupCall → List (Int × Option Int) × (Key → List Int)
  | [] => ([], μ)
  | c :: cs =>
      let r := c.ofLists μ
      let rs := ofRun r.2 cs
      (r.1 :: rs.1, rs.2)

-- A key is a C string, a value a word of the machine.
def Sound : DupCall → Prop
  | insert k v => (∀ c ∈ k, c ≠ 0) ∧ Fits v
  | find k => ∀ c ∈ k, c ≠ 0
  | update k v => (∀ c ∈ k, c ≠ 0) ∧ Fits v
  | delete k => ∀ c ∈ k, c ≠ 0

instance (c : DupCall) : Decidable c.Sound :=
  match c with
  | insert k v => inferInstanceAs (Decidable ((∀ c ∈ k, c ≠ 0) ∧ wrap v = v))
  | find k => inferInstanceAs (Decidable (∀ c ∈ k, c ≠ 0))
  | update k v => inferInstanceAs (Decidable ((∀ c ∈ k, c ≠ 0) ∧ wrap v = v))
  | delete k => inferInstanceAs (Decidable (∀ c ∈ k, c ≠ 0))

-- What a call needs beside a root, for the lists to tell its answer: `bdelky` a key and a tree it can take the last value
-- out of.
def Meets (s : St) (os : List Int) (μ : Key → List Int) : DupCall → Prop
  | delete k => CanDrop s os μ k
  | _ => True

-- Every call of the run has it.
def Met (os : List Int) : List DupCall → St → (Key → List Int) → Prop
  | [], _, _ => True
  | c :: cs, s, μ => c.Meets s os μ ∧ ∀ a s', exec c.answer s = .done (a, s') → Met os cs s' (c.ofLists μ).2

-- Whether a root allows duplicates.
def dupsOf (s : St) : Bool := decide ((s.disk.block s.ctx.super.scroot).misc ≠ 0)

theorem ends_answer (hb : Sized) (hcap : 8 ≤ ZMXKEY) (h : Valued s os μ keys) (hfuel : 2 * keys + 3 ≤ FUEL) (c : DupCall)
    (hc : c.Sound) (hmeets : c.Meets s os μ) :
    (exec c.answer s).Ends (Refused s.ctx.super.scroot) fun r =>
      r.1 = (c.ofRoot (dupsOf s) μ).1 ∧ ∃ o, Ensues s os (keys + 1) (c.ofRoot (dupsOf s) μ).2 o r.2 := by
  have hle : keys ≤ keys + 1 := Nat.le_succ keys
  cases c with
  | insert k v =>
      simp only [answer, exec_bind, exec_pure, ofRoot, dupsOf, decide_eq_false_iff_not, not_not, ofLists]
      refine (h.ends_binsky hb hcap hfuel hc.1 hc.2).bind ?_
      rintro ⟨code,s1⟩ (⟨hd,rfl,o,hl⟩ | ⟨hd,rfl,o,hl⟩)
      · rw [if_pos hd]
        exact ⟨rfl,o,hl.mono hle⟩
      · rw [if_neg hd]
        exact ⟨rfl,o,hl⟩
  | find k =>
      simp only [answer, exec_bind, exec_pure, ofRoot, ofLists]
      refine (h.ends_find hb hcap hfuel k).bind ?_
      rintro ⟨⟨code,val⟩,s1⟩ (⟨c,hnil,rfl,-,hl⟩ | ⟨v,vs,c,hvs,hcode,-,hl⟩)
      · rw [hnil]
        exact ⟨rfl,_,hl.mono hle⟩
      · obtain ⟨rfl,rfl⟩ := Prod.mk.inj hcode
        rw [hvs]
        exact ⟨rfl,_,hl.mono hle⟩
  | update k v =>
      simp only [answer, exec_bind, exec_pure, ofRoot, ofLists]
      refine (h.ends_bupdky hb hcap hfuel k hc.2).bind ?_
      rintro ⟨code,s1⟩ (⟨hnil,rfl,o,hl⟩ | ⟨hne,rfl,o,hl⟩)
      · rw [if_pos hnil]
        exact ⟨rfl,o,hl.mono hle⟩
      · rw [if_neg hne]
        exact ⟨rfl,o,hl.mono hle⟩
  | delete k =>
      simp only [answer, exec_bind, exec_pure, ofRoot, ofLists]
      refine (h.ends_bdelky hb hcap hfuel k hmeets).bind ?_
      rintro ⟨code,s1⟩ (⟨hnil,rfl,o,hl⟩ | ⟨hne,rfl,o,hl⟩)
      · rw [if_pos hnil]
        exact ⟨rfl,o,hl.mono hle⟩
      · rw [if_neg hne]
        exact ⟨rfl,o,hl.mono hle⟩

omit [Build] in
theorem ofRoot_dups (c : DupCall) : c.ofRoot true μ = c.ofLists μ := by
  cases c <;> simp [ofRoot]

-- Induction on the calls: what one of them leaves is what the rest can start from.
theorem ends_answers (hb : Sized) (hcap : 8 ≤ ZMXKEY) (h : Fifo s os μ keys) (cs : List DupCall)
    (hcs : ∀ c ∈ cs, c.Sound) (hfuel : 2 * (keys + cs.length) + 3 ≤ FUEL) (hmet : Met os cs s μ) :
    (exec (answers cs) s).Ends (Refused s.ctx.super.scroot) fun r =>
      r.1 = (ofRun μ cs).1 ∧ Lasts s os (keys + cs.length) (ofRun μ cs).2 r.2 := by
  induction cs generalizing s μ keys with
  | nil => exact ⟨rfl,rfl,h⟩
  | cons c cs ih =>
      simp only [List.length_cons] at hfuel
      obtain ⟨hmeets,hrest⟩ := hmet
      simp only [answers, exec_bind, exec_pure, ofRun, List.length_cons]
      refine (ends_answer hb hcap h.2 (by omega) c (hcs c List.mem_cons_self) hmeets).self.bind ?_
      rintro ⟨a,s1⟩ ⟨hrun,ha,o,hl⟩
      rw [dupsOf, decide_eq_true h.1, ofRoot_dups] at ha hl
      subst ha
      have hl := hl.lasts h.1
      have htail := ih hl.fifo (fun c hc => hcs c (List.mem_cons_of_mem _ hc)) (by omega) (hrest _ s1 hrun)
      rw [hl.root] at htail
      refine htail.bind ?_
      rintro ⟨as,s2⟩ ⟨rfl,hl2⟩
      exact ⟨rfl,hl2.root.trans hl.root,hl2.fifo.mono (by omega)⟩

end DupCall

-- The duplicate of `k` at the address `a`, read through the cache: it is not deleted, holds `v` and links to
-- `b`, and its block is not free.
def ReadsDup (s : St) (fs : List Int) (k : Key) (link : DKey → Int) (a v b : Int) : Prop :=
  ∃ d, exec (getdkey a) s = .done (some d, s) ∧ d.key = k ∧ d.deleted = false ∧ d.val = v ∧ link d = b ∧
    (cnvdraddr a).1 ∉ fs

-- What the tree and the blocks of duplicates show of the lists; `fs` are the free blocks.
def Shown (s : St) (μ : Key → List Int) : Prop :=
  ∃ (m : Nat) (t : KeyTree m) (fs os : List Int), Index s t fs os ∧ ∀ k,
    (∀ e ∈ t.inorder, e.key ≠ k) ∧ μ k = [] ∨ ∃ e ∈ t.inorder, e.key = k ∧
      (e.dup = ZNULL ∧ μ k = [e.val] ∨
        e.dup ≠ ZNULL ∧ Walk (ReadsDup s fs k DKey.flink) ZNULL e.val (μ k) ∧
          Walk (ReadsDup s fs k DKey.blink) ZNULL e.dup (μ k).reverse)

theorem Dups.reads (hb : Sized) (h : Dups s fs D os nd live ent) {p : Int × Nat} {v nx pv : Int}
    (hp : Cell live ent k p v nx pv) :
    ReadsDup s fs k DKey.flink (addr p) v nx ∧ ReadsDup s fs k DKey.blink (addr p) v pv := by
  have hget := h.getdkey hb hp.1
  have hfree : (cnvdraddr (addr p)).1 ∉ fs := by
    rw [h.cnvdraddr_addr hp.1]
    exact h.store.not_mem_free (List.mem_append_left _ (h.seg p hp.1).1)
  rw [hp.2] at hget
  exact ⟨⟨_,hget,rfl,rfl,rfl,rfl,hfree⟩,⟨_,hget,rfl,rfl,rfl,rfl,hfree⟩⟩

theorem Listed.shown {t : KeyTree m} (hb : Sized) (h : Listed s t fs D os nd live ent μ) : Shown s μ := by
  refine ⟨m,t,fs,D ++ os,h.formed.index,fun k => ?_⟩
  have hd := h.whole.dups
  by_cases hk : ∃ e ∈ t.inorder, e.key = k
  · obtain ⟨e,he,rfl⟩ := hk
    obtain ⟨ps,hc⟩ := h.chained e he
    refine Or.inr ⟨e,he,rfl,?_⟩
    rcases hc with ⟨-,hdup,hvs⟩ | ⟨hne,-,hfront,hback,hlinked⟩
    · exact Or.inl ⟨hdup,hvs⟩
    · refine Or.inr ⟨?_,?_,?_⟩
      · obtain ⟨us,q,hps⟩ := (List.eq_nil_or_concat' ps).resolve_left hne
        obtain ⟨v,nx,pv,hlive,-⟩ := hlinked.exists_node (p := q) (by rw [hps]; simp)
        rw [hback, hps, back_append]
        exact hd.addr_ne_null hlive
      · rw [hfront]
        exact hlinked.walk fun p v nx pv hp => (hd.reads hb hp).1
      · rw [hback, ← List.append_nil (μ e.key).reverse]
        exact hlinked.walk_back (fun p v nx pv hp => (hd.reads hb hp).2) rfl
  · have hall : ∀ e ∈ t.inorder, e.key ≠ k := fun e he hek => hk ⟨e,he,hek⟩
    exact Or.inl ⟨hall,h.absent k hall⟩

-- Every sequence of named calls answers like lists of values, first in first out, as long as the calls of `bdelky` that
-- take out the only value of a key have a key and a tree to do so; and the chains, read either way, are the lists.
theorem calls_like_lists (hb : Sized) (hcap : 8 ≤ ZMXKEY) (h : Fifo s os μ keys) (cs : List DupCall)
    (hcs : ∀ c ∈ cs, c.Sound) (hfuel : 2 * (keys + cs.length) + 3 ≤ FUEL) (hmet : DupCall.Met os cs s μ) :
    (exec (DupCall.answers cs) s).Ends (Refused s.ctx.super.scroot) fun r => r.1 = (DupCall.ofRun μ cs).1 ∧
      Fifo r.2 os (DupCall.ofRun μ cs).2 (keys + cs.length) ∧ Shown r.2 (DupCall.ofRun μ cs).2 := by
  refine (DupCall.ends_answers hb hcap h cs hcs hfuel hmet).mono (fun _ _ h => h) fun r hr => ⟨hr.1,hr.2.fifo,?_⟩
  obtain ⟨-,-,m,t,fs,D,nd,live,ent,hl,-⟩ := hr.2.fifo
  exact hl.shown hb

section Few

omit [Build] in
theorem Few.ofLists (h : Few (fun k => (μ k).head?) keys) (c : DupCall) :
    Few (fun k => ((c.ofLists μ).2 k).head?) (keys + 1) := by
  have hupdate : ∀ k vs, Few (fun j => (Function.update μ k vs j).head?) (keys + 1) := fun k vs => by
    have hfew := h.update k vs.head?
    have hsame : (fun j => (Function.update μ k vs j).head?) =
        Function.update (fun j => (μ j).head?) k vs.head? := by
      funext j
      rcases eq_or_ne j k with rfl | hne
      · simp
      · simp [hne]
    rwa [hsame]
  have hsame : Few (fun k => (μ k).head?) (keys + 1) := h.mono (Nat.le_succ keys)
  cases c with
  | insert k v => exact hupdate _ _
  | find k => exact hsame
  | update k v =>
      simp only [DupCall.ofLists]
      split
      · exact hsame
      · exact hupdate _ _
  | delete k =>
      simp only [DupCall.ofLists]
      split
      · exact hsame
      · exact hupdate _ _

theorem Listed.length_le {t : KeyTree m} (h : Listed s t fs D os nd live ent μ) (hfew : Few (fun k => (μ k).head?) keys) :
    t.inorder.length ≤ keys := by
  obtain ⟨l,hlen,hl⟩ := hfew
  refine (h.formed.length_le fun e he => hl _ ?_).trans hlen
  obtain ⟨v,vs,ps,hvs,-⟩ := h.values he
  simp [hvs]

theorem Listed.roomFor {t : KeyTree m} (h : Listed s t fs D os nd live ent μ)
    (hfew : Few (fun k => (μ k).head?) (2 * ZMXKEY)) (key : Key) : RoomFor key t :=
  BTree.roomy_of_length h.formed.wf (h.length_le hfew)

theorem DupCall.met_of_few (cs : List DupCall) (hfew : Few (fun k => (μ k).head?) keys)
    (hlen : keys + cs.length ≤ 2 * ZMXKEY) (hshort : ∀ k, .delete k ∈ cs → k.length ≤ 31) : DupCall.Met os cs s μ := by
  induction cs generalizing s μ keys with
  | nil => trivial
  | cons c cs ih =>
      rw [List.length_cons] at hlen
      refine ⟨?_,fun _ _ _ => ih (hfew.ofLists c) (by omega) fun k hk => hshort k (List.mem_cons_of_mem _ hk)⟩
      cases c with
      | delete k =>
          exact fun _ => ⟨hshort k List.mem_cons_self,fun m t fs D nd live ent hl => hl.roomFor (hfew.mono (by omega)) k⟩
      | insert k v => trivial
      | find k => trivial
      | update k v => trivial

end Few

end Calls

section Run

attribute [local instance] smallBuild

theorem sized_small : Sized := ⟨by decide,by decide,by decide,by decide,by decide⟩

end Run

-- The empty root of a new file, with duplicates allowed.
def St.freshDups [Build] : St :=
  { St.fresh with disk := ⟨fun b => { Block.fresh ZROOT b with misc := 1 }, 2⟩ }

section Run

local instance dupsBuild : Build := build32 100

theorem sized_dups : Sized := ⟨by decide,by decide,by decide,by decide,by decide⟩

theorem valued_fresh (misc : Int) (keyblk : Int → KeyEnt) :
    Valued { St.fresh with disk := ⟨fun b => { Block.fresh ZROOT b with misc := misc, keyblk := keyblk }, 2⟩ } [0]
      (fun _ => []) 0 := by
  have hsize : ((2 : Int) * ZBLKSZ ≤ BTINT_MAX ∧ (0 : Int) ≤ 2) ∧ ∀ b : Int, b = 1 ∨ b = 0 → 0 ≤ b ∧ b < 2 :=
    ⟨by decide,fun b hb => by omega⟩
  have hids : (BTree.node 1 [] [BTree.nil] : KeyTree 1).ids = [1] := by simp [BTree.ids_node]
  refine ⟨⟨rfl,rfl,rfl⟩,1,BTree.node 1 [] [BTree.nil],[],[],fun _ => 0,∅,fun _ => ⟨[],false,0,0,0⟩,
    ⟨⟨⟨rfl,?_,?_,?_⟩,?_,by decide,?_,?_⟩,⟨⟨?_,hsize.1.1,?_,?_,?_,?_,?_,Or.inl rfl,Or.inl rfl,?_⟩,
      Or.inl List.mem_cons_self,Or.inl rfl⟩,?_,fun _ _ => rfl,?_⟩,by decide⟩
  · exact holds_node.2 ⟨⟨rfl,trivial,trivial⟩,fun _ _ => trivial⟩
  · intro b hb
    obtain rfl : b = 1 := by simpa [hids] using hb
    rfl
  · refine ⟨rfl,by simp [hids],fun b hb => ?_,rfl,hsize.1.2⟩
    exact hsize.2 b (by simpa [hids] using hb)
  · exact BTree.wf_node.2 ⟨by decide,Nat.zero_le _,by decide,fun _ _ => trivial⟩
  · simp [BTree.inorder_node, Sorted]
  · simp [BTree.inorder_node]
  · refine ⟨rfl,by simp [hids],fun b hb => ?_,rfl,hsize.1.2⟩
    exact hsize.2 b (by simpa [hids] using hb)
  · simp [hids, ZSUPER]
  · simp [hids, St.fresh]
  all_goals simp [BTree.inorder_node]

theorem fifo_freshDups : Fifo St.freshDups [0] (fun _ => []) 0 := ⟨by decide,valued_fresh 1 _⟩

attribute [local irreducible] exec

-- Two keys take turns in one block of duplicates; more keys split the root; then values go, and keys with the last of
-- theirs, until the left leaf is empty.
def manyTurns : List DupCall :=
  [.insert [65] 7, .insert [66] 5, .insert [65] 8, .insert [66] 6, .find [65], .delete [65], .find [65]] ++
    (List.range 21).map (fun i => .insert [Fin.ofNat 256 (67 + i)] i) ++
    [.delete [65], .find [65], .update [66] 9, .delete [66], .find [66]] ++
    (List.range 11).map fun i => .delete [Fin.ofNat 256 (66 + i)]

theorem calls_like_lists_manyTurns : ∃ r, exec (DupCall.answers manyTurns) St.freshDups = .done r ∧
    r.1 = [(0, none),(0, none),(0, none),(0, none),(0, some 7),(0, none),(0, some 8)] ++ List.replicate 22 (0, none) ++
      [(QNOKEY, none),(0, none),(0, none),(0, some 6)] ++ List.replicate 11 (0, none) ∧
      Fifo r.2 [0] (DupCall.ofRun (fun _ => []) manyTurns).2 44 ∧ Shown r.2 (DupCall.ofRun (fun _ => []) manyTurns).2 := by
  have hshort : ∀ c ∈ manyTurns, c.key.length ≤ 31 := by decide +kernel
  have hmet : DupCall.Met [0] manyTurns St.freshDups fun _ => [] :=
    DupCall.met_of_few _ few_none (by decide +kernel) fun k hk => hshort _ hk
  have h := calls_like_lists sized_dups (by decide) fifo_freshDups manyTurns (by decide +kernel) (by decide +kernel) hmet
  have hdone : (exec (DupCall.answers manyTurns) St.freshDups).result.isSome = true := by decide +kernel
  obtain ⟨r,hr⟩ := Option.isSome_iff_exists.1 hdone
  have hrun := Prog.Outcome.result_eq_some.1 hr
  rw [hrun] at h
  exact ⟨r,hrun,h.1.trans (by decide +kernel),h.2⟩

-- A key of 32 bytes goes in and is found, but it is not taken out with its last value.
def longTurns : List DupCall :=
  [.insert (List.replicate 32 97) 7, .delete (List.replicate 32 97), .find (List.replicate 32 97)]

theorem not_like_lists_longTurns : Fifo St.freshDups [0] (fun _ => []) 0 ∧ (∀ c ∈ longTurns, c.Sound) ∧
    (exec (DupCall.answers longTurns) St.freshDups).result.map Prod.fst = some [(0, none),(QDELER, none),(0, some 7)] ∧
    (DupCall.ofRun (fun _ => []) longTurns).1 = [(0, none),(0, none),(QNOKEY, none)] :=
  ⟨fifo_freshDups,by decide +kernel,by decide +kernel,by decide +kernel⟩

end Run

end Btlib
