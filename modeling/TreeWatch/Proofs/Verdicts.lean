import TreeWatch.Proofs.Sound

/-!
# The Check Is Exact

What the check of a record accepts, said of its two tables as they are. Nothing
is assumed of them: the lists may be in any order, an entry may belong to no
node, and the parents may lead in a circle or away from the root.

The check searches child lists and climbs along parents, and over such tables
neither is safe by itself. A search by halves finds what is in a list only if
the list is in order. A climb without a bound need not end, and one with a bound
could be cut off. The check is exact because its parts cover each other. No list
is searched before all of them are known to be in order. No climb goes on without
a way to the root for longer than the bound, and a way to the root never needs
more steps than there are parent links, since no node comes twice on it.

How the lists are searched is left open. All that is required of a search is
that it is right on ascending lists (`Handle.Searches`).

## Main definitions

* `Handle.Searches`: A search that is right on ascending lists.
* `Handle.bisect`: Searching by halves.
* `Store.checkBy`: The check, with any search.
* `Store.ancestor`: The node some steps above another.
* `Store.Lawful`: What a record has to satisfy.

## Theorems

* `Handle.searches_bisect`: Searching by halves is right on ascending lists.
* `Store.under_iff_ancestor`: What a node lies under is some steps above it.
* `Store.lawful_iff_sound`: A lawful record is a sound one.
* `Store.checkBy_eq`: How the lists are searched makes no difference.
* `Store.check_exact`: The check accepts the lawful records and no others.
-/

namespace TreeWatch

open Forest (Under under_iff_up)

namespace Handle

/-- The search finds the row of a handle in every ascending list that holds it, and
    nothing in the others. Of lists in another order nothing is said. -/
def Searches (search : List Handle → Handle → Option Nat) : Prop :=
  ∀ hs h, Ascending hs → search hs h = hs.idxOf? h

/-- Narrow the rows from `base` on, `size` of them, to the one in which `h` has to be,
    by at most `bound` halvings. The upper half is kept unless it starts behind
    `h`. -/
def bisectWithin (hs : List Handle) (h : Handle) : Nat → Nat → Nat → Nat
  | 0, base, _ => base
  | bound + 1, base, size =>
    if size ≤ 1 then base
    else
      let mid := base + size / 2
      bisectWithin hs h bound (if hs[mid]?.any (h < ·) then base else mid) (size - size / 2)

/-- The row of `h`, searched by halves. -/
def bisect (hs : List Handle) (h : Handle) : Option Nat :=
  let row := bisectWithin hs h hs.length 0 hs.length
  if hs[row]? = some h then some row else none

/-- A row that is among those left is never lost. -/
theorem bisectWithin_eq (hs : List Handle) (h : Handle) (hasc : Ascending hs) (row : Nat)
    (hrow : hs[row]? = some h) (bound base size : Nat) (hlow : base ≤ row)
    (hhigh : row < base + size) (hfit : base + size ≤ hs.length) (hbound : size ≤ bound + 1) :
    bisectWithin hs h bound base size = row := by
  induction bound generalizing base size with
  | zero =>
      rw [bisectWithin]
      omega
  | succ bound ih =>
      rw [bisectWithin]
      by_cases hone : size ≤ 1
      · rw [if_pos hone]
        omega
      · rw [if_neg hone]
        have hmid : base + size / 2 < hs.length := by omega
        rcases List.getElem?_eq_some_iff.mp hrow with ⟨hlt, hget⟩
        have hord : ∀ i j (hi : i < hs.length) (hj : j < hs.length), i < j → hs[i] < hs[j] :=
          List.pairwise_iff_getElem.mp hasc
        simp only [List.getElem?_eq_getElem hmid, Option.any_some, decide_eq_true_eq]
        by_cases hbehind : h < hs[base + size / 2]
        · -- The upper half starts behind `h`.
          have hbefore : row < base + size / 2 := by
            by_contra hge
            rcases Nat.eq_or_lt_of_le (not_lt.mp hge) with heq | hgt
            · simp only [heq, hget, lt_self_iff_false] at hbehind
            · exact lt_asymm hbehind (hget ▸ hord _ _ hmid hlt hgt)
          rw [if_pos hbehind]
          exact ih base _ hlow (by omega) (by omega) (by omega)
        · have hfrom : base + size / 2 ≤ row := by
            by_contra hlt'
            exact hbehind (hget ▸ hord _ _ hlt hmid (not_le.mp hlt'))
          rw [if_neg hbehind]
          exact ih _ _ hfrom (by omega) (by omega) (by omega)

/-- Searching by halves is right on ascending lists. -/
theorem searches_bisect : Searches bisect := by
  intro hs h hasc
  unfold bisect
  cases hidx : hs.idxOf? h with
  | none =>
      have hno : h ∉ hs := List.idxOf?_eq_none_iff.mp hidx
      rw [if_neg]
      intro hget
      exact hno (List.mem_of_getElem? hget)
  | some row =>
      have hrow := (idxOf?_eq_some_iff_of_nodup hs hasc.nodup h row).mp hidx
      have hlt := (List.getElem?_eq_some_iff.mp hrow).1
      have hfound := bisectWithin_eq hs h hasc row hrow hs.length 0 hs.length (Nat.zero_le _)
        (by omega) (by omega) (by omega)
      simp only [hfound, hrow, if_true]

end Handle

namespace Store

/-- The node that the parents lead to from `h` in some number of steps, none if they
    end before that. -/
def ancestor (s : Store) : Nat → Handle → Option Handle
  | 0, h => some h
  | steps + 1, h => (s.parents[h]?).bind (s.ancestor steps)

/-- What a record has to satisfy, read off its tables: the root has no parent, only
    tracked nodes have a child list, the lists are strictly ascending, they hold the
    nodes that have their owner as parent, and the parents lead from every node to the
    root. -/
structure Lawful (s : Store) : Prop where
  root_top : ∀ r, s.root = some r → s.parents[r]? = none
  owner : ∀ (p : Handle) list, s.childLists[p]? = some list →
    s.root = some p ∨ ∃ q, s.parents[p]? = some q
  ascending : ∀ (p : Handle) list, s.childLists[p]? = some list → Handle.Ascending list
  listed : ∀ p c : Handle,
    (∃ list, s.childLists[p]? = some list ∧ c ∈ list) ↔ s.parents[c]? = some p
  rooted : ∀ c p : Handle, s.parents[c]? = some p →
    ∃ r steps, s.root = some r ∧ s.ancestor steps c = some r

/-- The nodes that a node lies under are those some steps above it. -/
theorem under_iff_ancestor (s : Store) (h a : Handle) :
    Under s.parent h a ↔ ∃ steps, s.ancestor steps h = some a := by
  constructor
  · intro hu
    induction hu using Relation.ReflTransGen.head_induction_on with
    | refl => exact ⟨0, rfl⟩
    | @head h p hp _ ih =>
        rcases ih with ⟨steps, hsteps⟩
        have hget : s.parents[h]? = some p := hp
        exact ⟨steps + 1, by rw [ancestor, hget, Option.bind_some, hsteps]⟩
  · rintro ⟨steps, hsteps⟩
    induction steps generalizing h with
    | zero => exact Option.some.inj hsteps ▸ Under.refl h
    | succ steps ih =>
        rcases Option.bind_eq_some_iff.mp hsteps with ⟨p, hp, hrest⟩
        exact (Under.of_up hp).trans (ih p hrest)

/-- A lawful record is a sound one. -/
theorem lawful_iff_sound (s : Store) : s.Lawful ↔ s.Sound := by
  have hlist : ∀ p list, s.childLists[p]? = some list → s.children p = list := by
    intro p list hp
    rw [children, Forest.kids_eq, hp, Option.getD_some]
  constructor
  · intro hs
    have hasc : ∀ p, Handle.Ascending (s.children p) := by
      intro p
      cases hp : s.childLists[p]? with
      | none =>
          rw [children, Forest.kids_eq, hp, Option.getD_none]
          exact List.Pairwise.nil
      | some list => exact hlist p list hp ▸ hs.ascending p list hp
    refine ⟨⟨hs.root_top, fun p c => ?_, fun p => (hasc p).nodup, fun h p hp => ?_⟩, hasc,
      fun p hp => ?_⟩
    · exact (s.mem_children_iff p c).trans (hs.listed p c)
    · rcases hs.rooted h p hp with ⟨r, steps, hr, hsteps⟩
      exact ⟨r, hr, (s.under_iff_ancestor h r).mpr ⟨steps, hsteps⟩⟩
    · rcases (HandleMap.contains_iff s.childLists p).mp hp with ⟨list, hget⟩
      exact (s.contains_iff p).mpr (hs.owner p list hget)
  · intro hs
    refine ⟨hs.tree.root_up, fun p list hp => ?_, fun p list hp => ?_, fun p c => ?_,
      fun c p hp => ?_⟩
    · exact (s.contains_iff p).mp
        (hs.owned p ((HandleMap.contains_iff s.childLists p).mpr ⟨list, hp⟩))
    · exact hlist p list hp ▸ hs.ascending p
    · exact (s.mem_children_iff p c).symm.trans (hs.tree.mem_kids p c)
    · rcases hs.tree.rooted c p hp with ⟨r, hr, hu⟩
      rcases (s.under_iff_ancestor c r).mp hu with ⟨steps, hsteps⟩
      exact ⟨r, steps, hr, hsteps⟩

section Search

variable (search : List Handle → Handle → Option Nat)

/-- Follow the recorded parents from `h`, each confirmed by a search of the list of
    the parent, for at most `bound` steps. -/
def climbsBy (s : Store) (root : Handle) : Nat → Handle → Bool
  | bound, h =>
    if h = root then true
    else match s.parent h with
      | none => false
      | some p =>
        if (search (s.children p) h).isNone then false
        else match bound with
          | 0 => false
          | bound + 1 => climbsBy s root bound p

/-- Whether the recorded parents lead from `h` to the root, with the lists searched
    on the way. -/
def isReachableBy (s : Store) (h : Handle) : Bool :=
  match s.root with
  | none => false
  | some root => s.climbsBy search root s.parents.size h

/-- The first violation of one parent link, with the list of the parent searched. -/
def linkViolationBy (s : Store) (child parent : Handle) : Option Violation :=
  if (search (s.children parent) child).isNone then some (.unlisted child parent)
  else if !s.isReachableBy search child then some (.unreachable child)
  else none

/-- The first violation of a record, with the child lists searched. -/
def checkBy (s : Store) : Option Violation :=
  s.rootViolation
    <|> (s.childLists.toList.findSome? fun e => s.listViolation e.1 e.2)
    <|> (s.parents.toList.findSome? fun e => s.linkViolationBy search e.1 e.2)

variable (hsearch : Handle.Searches search)

include hsearch

theorem isNone_search (hs : List Handle) (h : Handle) (hasc : Handle.Ascending hs) :
    (search hs h).isNone = !hs.contains h := by
  rw [hsearch hs h hasc, Bool.eq_iff_iff, Option.isNone_iff_eq_none, List.idxOf?_eq_none_iff,
    Bool.not_eq_true', ← Bool.not_eq_true, List.contains_iff_mem]

/-- Over lists in order a climb that searches is a climb that looks. -/
theorem climbsBy_eq (s : Store) (hasc : ∀ p, Handle.Ascending (s.children p)) (root : Handle)
    (bound : Nat) (h : Handle) : s.climbsBy search root bound h = s.climbs root bound h := by
  induction bound using Nat.strong_induction_on generalizing h with
  | _ bound ih =>
      unfold climbsBy climbs
      by_cases hr : h = root
      · rw [if_pos hr, if_pos hr]
      · rw [if_neg hr, if_neg hr]
        cases s.parent h with
        | none => rfl
        | some p =>
            simp only [isNone_search search hsearch _ h (hasc p)]
            cases (s.children p).contains h with
            | false => rfl
            | true =>
                cases bound with
                | zero => rfl
                | succ bound => exact ih bound (Nat.lt_succ_self bound) p

theorem linkViolationBy_eq (s : Store) (hasc : ∀ p, Handle.Ascending (s.children p))
    (child parent : Handle) :
    s.linkViolationBy search child parent = s.linkViolation child parent := by
  have hreach : s.isReachableBy search child = s.isReachable child := by
    unfold isReachableBy isReachable
    cases s.root with
    | none => rfl
    | some root => exact s.climbsBy_eq search hsearch hasc root _ child
  unfold linkViolationBy linkViolation
  rw [isNone_search search hsearch _ child (hasc parent), hreach]

/-- How the lists are searched makes no difference to the check, whatever the tables
    hold: the links come last, and a list that is not in order was found before. -/
theorem checkBy_eq (s : Store) : s.checkBy search = s.check := by
  unfold checkBy check
  cases hroot : s.rootViolation with
  | some v => rfl
  | none =>
      cases hlists : s.childLists.toList.findSome? fun e => s.listViolation e.1 e.2 with
      | some v => rfl
      | none =>
          have hasc : ∀ p, Handle.Ascending (s.children p) := by
            intro p
            rw [children, Forest.kids_eq]
            cases hp : s.childLists[p]? with
            | none => exact List.Pairwise.nil
            | some list =>
                have hentry := List.findSome?_eq_none_iff.mp hlists (p, list)
                  (Std.ExtTreeMap.mem_toList_iff_getElem?_eq_some.mpr hp)
                exact ((s.listViolation_eq_none_iff p list).mp hentry).2.1
          simp only [s.linkViolationBy_eq search hsearch hasc]

/-- The check accepts exactly the lawful records, whatever the tables hold and however
    the lists are searched. -/
theorem check_exact (s : Store) :
    s.checkBy search = s.check ∧ (s.check = none ↔ s.Lawful) :=
  ⟨s.checkBy_eq search hsearch, s.check_eq_none_iff_sound.trans s.lawful_iff_sound.symm⟩

end Search

/-- A lone root, and beside it two nodes below each other. -/
def island : Store where
  root := some ⟨1⟩
  parents := ((∅ : HandleMap Handle).insert ⟨2⟩ ⟨3⟩).insert ⟨3⟩ ⟨2⟩
  childLists := ((∅ : HandleMap (List Handle)).insert ⟨2⟩ [⟨3⟩]).insert ⟨3⟩ [⟨2⟩]

-- Every link is in a list and every list is in order, but nothing leads to the root.
theorem check_exact_of_island :
    Handle.Searches Handle.bisect ∧ island.checkBy Handle.bisect = island.check ∧
      (island.check = none ↔ island.Lawful) :=
  ⟨Handle.searches_bisect, check_exact Handle.bisect Handle.searches_bisect island⟩

example : island.check = some (.unreachable ⟨2⟩) := by
  decide +kernel

end Store

end TreeWatch
