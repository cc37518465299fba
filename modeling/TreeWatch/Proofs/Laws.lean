import TreeWatch.Pass
import TreeWatch.Proofs.Changes
import TreeWatch.Proofs.Notifications

/-!
# Laws of Steps

A relation between two moments of a step is a law if the changes of a record
keep to it and it may be applied over and over. Full passes and notifications
change a record by nothing but these changes, so they keep to every law
wherever they end. Whether they end is another question, and the record may be
in any state in between.

A law may restrict what comes in. A pass takes it from its snapshot and a
notification takes it from the source, so it is enough to know what is shown
there. Relocations are made by passes only and are not asked for in a law.

The proofs follow the text of the functions and carry no invariant along.

## Main definitions

* `Step.Abides`: A computation keeps to a relation wherever it ends.
* `Step.Law`: The changes of a record keep to a relation.
* `PointEdit.Shows`: What a source shows may come in.

## Theorems

* `Pass.abides_run`: A full pass keeps to a law.
* `PointEdit.abides_entered`, `PointEdit.abides_left`,
  `PointEdit.abides_reparented`: So do the three notifications.
-/

namespace TreeWatch

namespace Step

/-- A computation keeps to a relation from the moment `s` to the one it ends
    with. -/
def Abides {α : Type} (R : Step → Step → Prop) (s : Step) (out : α → Step)
    (r : Except Fault α) : Prop :=
  ∀ a, r = .ok a → R s (out a)

/-- A relation that the changes of a record keep to. What comes in is admitted
    by `mayEnter`. -/
structure Law (isAlive : Handle → Bool) (mayEnter : Handle → Prop) (R : Step → Step → Prop) :
    Prop where
  /-- Bookkeeping. -/
  keeps : ∀ s s' : Step, s'.store = s.store → s'.trace = s.trace → R s s'
  trans : ∀ s s' s'' : Step, R s s' → R s' s'' → R s s''
  removeRows : ∀ (s : Step) (parent : Handle) (first last : Nat),
    Abides R s id (s.removeRows isAlive parent first last)
  insertRows : ∀ (s : Step) (parent : Handle) (first : Nat) (handles : List Handle)
    (fill : Snapshot), (∀ h ∈ handles, mayEnter h ∧ ∀ x ∈ fill.descendants h, mayEnter x) →
    Abides R s id (s.insertRows parent first handles fill)
  reset : ∀ (s : Step) (root : Option Handle) (fill : Snapshot),
    s.store.root = none ∨ s.store.Sound →
    (∀ r, root = some r → mayEnter r ∧ ∀ x ∈ fill.descendants r, mayEnter x) →
    R s (s.reset isAlive root fill)

section Ends

variable (R : Step → Step → Prop) (s : Step) {α : Type} (out : α → Step)

theorem Abides.ok (a : α) (h : R s (out a)) : Abides R s out (.ok a) := by
  rintro b hb
  rw [Except.ok.injEq] at hb
  exact hb ▸ h

theorem Abides.error (f : Fault) : Abides R s out (.error f) := by
  rintro b hb
  exact absurd hb (by simp only [reduceCtorEq, not_false_eq_true])

end Ends

namespace Law

variable {isAlive : Handle → Bool} {mayEnter : Handle → Prop} {R : Step → Step → Prop}
  (law : Law isAlive mayEnter R) (s : Step) {α β : Type} (out : α → Step) (out' : β → Step)

include law

-- Nothing is changed.
theorem same (a : α) (h : out a = s) : Abides R s out (.ok a) :=
  .ok R s out a (h ▸ law.keeps s s rfl rfl)

-- Only the report is changed.
theorem filed (a : α) (report : Report) (h : out a = { s with report := report }) :
    Abides R s out (.ok a) :=
  .ok R s out a (h ▸ law.keeps s _ rfl rfl)

-- One computation after another.
theorem seq (r : Except Fault α) (k : α → Except Fault β) (h : Abides R s out r)
    (hk : ∀ a, r = .ok a → Abides R (out a) out' (k a)) : Abides R s out' (r >>= k) := by
  intro b hb
  cases hr : r with
  | error f => simp only [hr, bind, Except.bind, reduceCtorEq] at hb
  | ok a =>
      simp only [hr, bind, Except.bind] at hb
      exact law.trans s (out a) _ (h a hr) (hk a hr b hb)

-- The same behind an alternative.
theorem seq_ite (c : Prop) [Decidable c] (r r' : Except Fault α) (k : α → Except Fault β)
    (h : c → Abides R s out r) (h' : ¬ c → Abides R s out r')
    (hk : ∀ a, Abides R (out a) out' (k a)) :
    Abides R s out' (if c then r >>= k else r' >>= k) := by
  by_cases hc : c
  · rw [if_pos hc]
    exact law.seq s out out' r k (h hc) fun a _ => hk a
  · rw [if_neg hc]
    exact law.seq s out out' r' k (h' hc) fun a _ => hk a

theorem foldlM (f : α → β → Except Fault α) (xs : List β) (a : α)
    (hf : ∀ a, ∀ x ∈ xs, Abides R (out a) out (f a x)) :
    Abides R (out a) out (xs.foldlM f a) := by
  induction xs generalizing a with
  | nil => exact law.same _ out a rfl
  | cons x xs ih =>
      rw [List.foldlM_cons]
      refine law.seq _ out out _ _ (hf a x List.mem_cons_self) fun b _ => ?_
      exact ih b fun c y hy => hf c y (List.mem_cons_of_mem x hy)

/-- A node is removed wherever it sits. -/
theorem removeNode (h : Handle) : Abides R s Prod.snd (s.removeNode isAlive h) := by
  unfold Step.removeNode
  split
  · exact law.seq s id Prod.snd _ _ (law.removeRows s _ _ _) fun m _ =>
      law.same m Prod.snd _ rfl
  · exact law.same s Prod.snd _ rfl

/-- What is tracked below new nodes is removed. -/
theorem evictTracked (roots : List Handle) (fill : Snapshot) :
    Abides R s Prod.snd (s.evictTracked isAlive roots fill) := by
  unfold Step.evictTracked
  refine law.foldlM Prod.snd _ _ (false, s) fun acc h _ => ?_
  by_cases hh : acc.2.store.contains h = true
  · rw [if_pos hh]
    refine law.seq acc.2 Prod.snd Prod.snd _ _ (law.removeNode acc.2 h) fun done _ => ?_
    dsimp only
    by_cases hdone : done.1 = true
    · rw [if_pos hdone]
      exact law.filed done.2 Prod.snd _ _ rfl
    · rw [if_neg hdone]
      exact law.same done.2 Prod.snd _ rfl
  · rw [if_neg hh]
    exact law.same acc.2 Prod.snd _ rfl

end Law

end Step

namespace Pass

open Step (Abides Law)

-- A batch is a part of what is wanted.
theorem mem_of_chooseBatch (live : Snapshot) (node : Handle) (row : Nat) (wanted : List Handle)
    (rounds : Nat) (s : Step) (done : List Handle × Step)
    (hok : chooseBatch live node row wanted rounds s = .ok done) : ∀ b ∈ done.1, b ∈ wanted := by
  have hfresh : ∀ store bound, ∀ b ∈ freshRun store bound wanted, b ∈ wanted :=
    fun store bound b hb => List.takeWhile_subset _ hb
  induction rounds generalizing s with
  | zero =>
      unfold chooseBatch at hok
      cases hevict : s.evictTracked live.contains
          (freshRun s.store (s.store.children node)[row]? wanted) live with
      | error f => simp only [hevict, bind, Except.bind, reduceCtorEq] at hok
      | ok evicted =>
          simp only [hevict, bind, Except.bind, pure, Except.pure, Except.ok.injEq] at hok
          exact hok ▸ hfresh _ _
  | succ rounds ih =>
      unfold chooseBatch at hok
      cases hevict : s.evictTracked live.contains
          (freshRun s.store (s.store.children node)[row]? wanted) live with
      | error f => simp only [hevict, bind, Except.bind, reduceCtorEq] at hok
      | ok evicted =>
          simp only [hevict, bind, Except.bind, pure, Except.pure] at hok
          by_cases hmore : evicted.1 = true
          · rw [if_pos hmore] at hok
            exact ih evicted.2 hok
          · rw [if_neg hmore, Except.ok.injEq] at hok
            exact hok ▸ hfresh _ _

section Shown

variable (live : Snapshot) (hlive : live.Proper)

include hlive

-- What is below a live node is live.
theorem live_of_descendants (b x : Handle) (hb : live.contains b = true)
    (hx : x ∈ live.descendants b) : live.contains x = true :=
  (hlive.contains_iff x).mpr (Forest.held_of_above _ _ x b
    ((hlive.mem_descendants_iff_ne live b x).mp hx).2 ((hlive.contains_iff b).mp hb))

-- What is wanted is live, with all below it.
theorem live_of_wanted (node : Handle) (batch : List Handle)
    (hbatch : ∀ b ∈ batch, b ∈ live.children node) :
    ∀ b ∈ batch, live.contains b = true ∧ ∀ x ∈ live.descendants b, live.contains x = true := by
  intro b hb
  have hbp := (hlive.tree.mem_kids node b).mp (hbatch b hb)
  have hbl := (hlive.contains_of_parent live b node hbp).1
  exact ⟨hbl, fun x => live_of_descendants live hlive b x hbl⟩

end Shown

section Passes

variable (live : Snapshot) {R : Step → Step → Prop}
  (law : Law live.contains (live.contains · = true) R)

include law

theorem abides_removeDead (depth : Nat) (node : Handle) (s : Step) :
    Abides R s id (removeDead live depth node s) := by
  induction depth generalizing node s with
  | zero => exact law.same s id s rfl
  | succ depth ih =>
      refine law.seq s id id _ _ (law.foldlM id _ _ s fun s c _ => ih c s) fun s₁ _ => ?_
      exact law.foldlM id _ _ s₁ fun s run _ => law.removeRows s node run.1 run.2

theorem abides_chooseBatch (node : Handle) (row : Nat) (wanted : List Handle) (rounds : Nat)
    (s : Step) : Abides R s Prod.snd (chooseBatch live node row wanted rounds s) := by
  induction rounds generalizing s with
  | zero =>
      exact law.seq s Prod.snd Prod.snd _ _ (law.evictTracked s _ live) fun done _ =>
        law.same done.2 Prod.snd _ rfl
  | succ rounds ih =>
      refine law.seq s Prod.snd Prod.snd _ _ (law.evictTracked s _ live) fun done _ => ?_
      by_cases hevicted : done.1 = true
      · rw [if_pos hevicted]
        exact ih done.2
      · rw [if_neg hevicted]
        exact law.same done.2 Prod.snd _ rfl

variable (hlive : live.Proper)

include hlive

theorem abides_settle (isStrict : Bool) (node : Handle) (s : Step) :
    Abides R s id (settle isStrict live node s) := by
  unfold settle
  dsimp only
  by_cases hsame : s.store.children node = live.children node
  · rw [if_pos hsame]
    exact law.same s id s rfl
  · rw [if_neg hsame]
    by_cases hstrict : isStrict = true
    · rw [if_pos hstrict]
      exact .error R s id _
    · rw [if_neg hstrict]
      -- The recorded children go away, then whatever else is in the way.
      refine law.seq_ite s id id _ _ _ _ (fun _ => law.same s id s rfl)
        (fun _ => law.removeRows s node _ _) fun s₁ => ?_
      have hcleared : Abides R s₁ id ((live.children node).foldlM (fun s c => do
          if s.store.contains c then return (← s.removeNode live.contains c).2 else return s)
          s₁) := by
        refine law.foldlM id _ _ s₁ fun s c _ => ?_
        by_cases hc : s.store.contains c = true
        · rw [if_pos hc]
          exact law.seq s Prod.snd id _ _ (law.removeNode s c) fun done _ =>
            law.same done.2 id _ rfl
        · rw [if_neg hc]
          exact law.same s id s rfl
      refine law.seq s₁ id id _ _ hcleared fun s₂ _ => ?_
      refine law.seq s₂ Prod.snd id _ _ (law.evictTracked s₂ _ live) fun done _ => ?_
      have halive := live_of_wanted live hlive node _ fun _ hb => hb
      refine law.seq_ite done.2 id id _ _ _ _ (fun _ => ?_) (fun _ => ?_) fun s₃ => ?_
      · exact law.insertRows done.2 node 0 _ live halive
      · exact law.same done.2 id _ rfl
      · exact law.filed s₃ id _ _ rfl

variable (hmoves : ∀ (s : Step) (h parent : Handle), Abides R s Prod.snd (s.relocate h parent))

include hmoves

theorem abides_mergeChildren (descend : Handle → Step → Except Fault Step)
    (hdescend : ∀ h s, Abides R s id (descend h s)) (node : Handle) (bound : Nat)
    (wanted : List Handle) (hwanted : ∀ b ∈ wanted, b ∈ live.children node) (row : Nat) (s : Step) :
    Abides R s Prod.snd (mergeChildren descend live node bound wanted row s) := by
  induction bound generalizing wanted row s with
  | zero => exact law.same s Prod.snd _ rfl
  | succ bound ih =>
      cases wanted with
      | nil => exact law.same s Prod.snd _ rfl
      | cons h rest =>
          have hrest : ∀ b ∈ rest, b ∈ live.children node := fun b hb =>
            hwanted b (List.mem_cons_of_mem h hb)
          have hswept : ∀ s : Step, Abides R s Prod.snd (do
              let s ← descend h s
              mergeChildren descend live node bound rest (row + 1) s) := fun s =>
            law.seq s id Prod.snd _ _ (hdescend h s) fun s' _ => ih rest hrest (row + 1) s'
          unfold mergeChildren
          refine law.seq_ite s id Prod.snd _ _ _ _ (fun _ => law.same s id s rfl)
            (fun _ => law.removeRows s node _ _) fun s₁ => ?_
          -- The child is in its row, or recorded elsewhere, or new.
          dsimp only [id]
          by_cases hrow : (s₁.store.children node)[row]? = some h
          · rw [if_pos hrow]
            exact hswept s₁
          · rw [if_neg hrow]
            by_cases hh : s₁.store.contains h = true
            · rw [if_pos hh]
              refine law.seq s₁ Prod.snd Prod.snd _ _ (hmoves s₁ h node) fun done _ => ?_
              by_cases hmoved : done.1 = true
              · rw [if_pos hmoved]
                exact hswept done.2
              · rw [if_neg hmoved]
                exact ih rest hrest row done.2
            · rw [if_neg hh]
              refine law.seq s₁ Prod.snd Prod.snd _ _
                (abides_chooseBatch live law node row (h :: rest) _ s₁) fun done hdone => ?_
              have hbatch := mem_of_chooseBatch live node row (h :: rest) _ s₁ done hdone
              have halive := live_of_wanted live hlive node done.1 fun b hb =>
                hwanted b (hbatch b hb)
              refine law.seq done.2 id Prod.snd _ _
                (law.insertRows done.2 node row done.1 live halive) fun s₂ _ => ?_
              exact ih _ (fun b hb => hwanted b (List.mem_of_mem_drop hb)) _ s₂

theorem abides_diffNode (isStrict : Bool) (depth : Nat) (node : Handle) (s : Step) :
    Abides R s id (diffNode isStrict live depth node s) := by
  induction depth generalizing node s with
  | zero => exact law.same s id s rfl
  | succ depth ih =>
      refine law.seq s Prod.snd id _ _ (abides_mergeChildren live law hlive hmoves _ ih node _ _
        (fun _ hb => hb) 0 s) fun done _ => ?_
      refine law.seq_ite done.2 id id _ _ _ _ (fun _ => ?_) (fun _ => ?_) fun s₁ => ?_
      · exact law.removeRows done.2 node _ _
      · exact law.same done.2 id _ rfl
      · exact abides_settle live law hlive isStrict node s₁

/-- A full pass over a sound record keeps to a law that admits the nodes of its
    snapshot. -/
theorem abides_run (isStrict : Bool) (s : Step) (hs : s.store.Sound) :
    Abides R s id (run isStrict live s) := by
  unfold run
  dsimp only
  by_cases hroot : s.store.root ≠ live.root
  · rw [if_pos hroot]
    have hreset : R s (s.reset live.contains live.root live) := by
      refine law.reset s live.root live (Or.inr hs) fun r hr => ?_
      have hlr : live.contains r = true := (hlive.contains_iff r).mpr (Or.inl hr)
      exact ⟨hlr, fun x => live_of_descendants live hlive r x hlr⟩
    refine .ok R s id _ ?_
    split
    · exact law.trans s _ _ hreset (law.keeps _ _ rfl rfl)
    · exact hreset
  · rw [if_neg hroot]
    cases s.store.root with
    | none => exact law.same s id s rfl
    | some root =>
        refine law.seq s id id _ _ (abides_removeDead live law _ root s) fun s₁ _ => ?_
        exact abides_diffNode live law hlive hmoves isStrict _ root s₁

end Passes

end Pass

namespace PointEdit

open Step (Abides Law)

/-- What a source shows may come in: its root, live nodes, and what it captures
    below a node. -/
structure Shows (source : Source) (mayEnter : Handle → Prop) : Prop where
  root : ∀ r, source.root = some r → mayEnter r
  live : ∀ h, source.isLive h = true → mayEnter h
  below : ∀ h, ∀ x ∈ (source.subtree h).descendants h, mayEnter x

variable (source : Source) (node : Handle) (tally : Tally) {mayEnter : Handle → Prop}
  {R : Step → Step → Prop} (law : Law source.isLive mayEnter R) (s : Step)

include law

-- A node without a parent becomes the root, or nothing happens.
theorem abides_adoptRoot (hshows : Shows source mayEnter) (top : Handle) :
    R s (adoptRoot source top tally s).2 := by
  unfold adoptRoot
  by_cases hadopt : (s.store.isEmpty && source.root = some top) = true
  · rw [if_pos hadopt]
    rcases (adopts_iff source s top).mp hadopt with ⟨hempty, htop⟩
    refine law.reset s (some top) _ (Or.inl hempty) fun r hr => ?_
    rw [Option.some.injEq] at hr
    subst hr
    exact ⟨hshows.root top htop, hshows.below top⟩
  · rw [if_neg hadopt]
    exact law.keeps s s rfl rfl

/-- A node that enters, over any record. -/
theorem abides_entered (hshows : Shows source mayEnter) :
    Abides R s Prod.snd (entered source node tally s) := by
  unfold entered
  by_cases hstale : (s.store.contains node || !source.isLive node) = true
  · rw [if_pos hstale]
    exact law.same s Prod.snd _ rfl
  · rw [if_neg hstale]
    cases climb s.store source node (maxChain - 1) node with
    | endless => exact law.filed s Prod.snd _ _ rfl
    | rootless top =>
        exact .ok R s Prod.snd _ (abides_adoptRoot source tally law s hshows top)
    | under parent top =>
        dsimp only
        rw [source.isEmpty_subtree]
        cases htop : source.isLive top with
        | false => exact law.same s Prod.snd _ rfl
        | true =>
            refine law.seq s Prod.snd Prod.snd _ _ (law.evictTracked s _ _) fun done _ => ?_
            by_cases hparent : done.2.store.contains parent = true
            · rw [if_pos hparent]
              refine law.seq done.2 id Prod.snd _ _ (law.insertRows done.2 _ _ [top] _ ?_)
                fun s₁ _ => law.same s₁ Prod.snd _ rfl
              intro h hh
              rw [List.mem_singleton] at hh
              subst hh
              exact ⟨hshows.live h htop, hshows.below h⟩
            · rw [if_neg hparent]
              exact law.filed done.2 Prod.snd _ _ rfl

variable (hs : s.store.Sound)

include hs

/-- A node that leaves a sound record. -/
theorem abides_left : Abides R s Prod.snd (left source node tally s) := by
  unfold left
  by_cases hnode : (!s.store.contains node) = true
  · rw [if_pos hnode]
    exact law.same s Prod.snd _ rfl
  · rw [if_neg hnode]
    by_cases hroot : s.store.root = some node
    · rw [if_pos hroot]
      have hreset := law.reset s none Snapshot.empty (Or.inr hs)
        fun r hr => absurd hr (Option.some_ne_none r).symm
      exact .ok R s Prod.snd _ (law.trans s _ _ hreset (law.keeps _ _ rfl rfl))
    · rw [if_neg hroot]
      exact law.seq s Prod.snd Prod.snd _ _ (law.removeNode s node) fun done _ =>
        law.same done.2 Prod.snd _ rfl

/-- A node that moves in a sound record. -/
theorem abides_reparented (hshows : Shows source mayEnter) :
    Abides R s Prod.snd (reparented source node tally s) := by
  unfold reparented
  by_cases hnode : (!s.store.contains node) = true
  · rw [if_pos hnode]
    exact abides_entered source node tally law s hshows
  · rw [if_neg hnode]
    by_cases hdead : (!source.isLive node) = true
    · rw [if_pos hdead]
      exact abides_left source node tally law s hs
    · rw [if_neg hdead]
      by_cases hsame : source.parent node = s.store.parent node
      · rw [if_pos hsame]
        exact law.same s Prod.snd _ rfl
      · rw [if_neg hsame]
        by_cases hroot : s.store.root = some node
        · rw [if_pos hroot]
          exact law.filed s Prod.snd _ _ rfl
        · rw [if_neg hroot]
          refine law.seq s Prod.snd Prod.snd _ _ (law.removeNode s node) fun done _ => ?_
          refine law.seq done.2 Prod.snd Prod.snd _ _
            (abides_entered source node tally law done.2 hshows) fun done' _ => ?_
          dsimp only
          split
          · exact law.filed done'.2 Prod.snd _ _ rfl
          · exact law.same done'.2 Prod.snd _ rfl

end PointEdit

end TreeWatch
