import TreeWatch.Proofs.Acts

/-!
# Scripts and Traces

A step leaves two accounts of itself. The trace is what consumers were told as
it happened, and the script is what is handed out at the end. `Narrates` says
that they agree: a trace leads from one record to another by pairs of
announcements, a pair for each edit of the script and in the same order, and
between them stand the deletions and the pairs that announce a new model.

The two announcements of a pair stand next to each other and carry the same
cell and the same rows. The relation is a chain of records, so a step that
tells nothing has done nothing.

The counts of a report are lengths in the trace. What the script makes of them
are sums, and a sum exists as long as it fits a machine word
(`Narrates.rowSums`).

## Main definitions

* `Narrates`: A trace and a script tell the same story.

## Theorems

* `Narrates.append`: One story after the other.
* `Narrates.script_eq`: The script is what the announcements stand for.
* `Narrates.idle`: A story without edits or resets tells nothing.
* `Narrates.rowSums`: The row counts of a script are those of the trace.
* `Pass.Course.narrates`: A course of acts is a story.
-/

namespace TreeWatch

open Forest (Under)

/-- The trace leads from the first record to the second. It tells the edits of the
    script, each by one pair of announcements, and a number of resets. -/
inductive Narrates : Store → List Notice → Script → Nat → Store → Prop
  | nil (s : Store) : Narrates s [] [] 0 s
  /-- Rows go away. Deletions may be announced after that. -/
  | removal (s t u : Store) (i : Index) (first last : Nat) (gone : List Handle)
      (rest : List Notice) (script : Script) (resets : Nat)
      (inOrder : first ≤ last)
      (rows : (s.rowsAt (some i) first last).length = last + 1 - first)
      (story : Narrates t rest script resets u) :
      Narrates s (TreeWatch.removal i first last s t ++ farewell gone t ++ rest)
        (.remove i.node first last :: script) resets u
  /-- Rows come. -/
  | insertion (s t u : Store) (i : Index) (first : Nat) (handles : List Handle)
      (rest : List Notice) (script : Script) (resets : Nat)
      (nonempty : handles ≠ [])
      (rows : t.rowsAt (some i) first (first + handles.length - 1) = handles)
      (story : Narrates t rest script resets u) :
      Narrates s (TreeWatch.insertion i first (first + handles.length - 1) s t ++ rest)
        (.insert i.node first handles :: script) resets u
  /-- The model is replaced. Deletions may be announced after that. -/
  | reset (s t u : Store) (gone : List Handle) (rest : List Notice) (script : Script)
      (resets : Nat) (story : Narrates t rest script resets u) :
      Narrates s (replacement s t ++ farewell gone t ++ rest) script (resets + 1) u

namespace Narrates

section Stories

variable {s t u : Store} {trace rest : List Notice} {script script' : Script} {m n : Nat}

theorem append (h : Narrates s trace script m t) (h' : Narrates t rest script' n u) :
    Narrates s (trace ++ rest) (script ++ script') (m + n) u := by
  induction h with
  | nil s =>
      rw [Nat.zero_add]
      exact h'
  | removal s t u i first last gone more script resets inOrder rows _ ih =>
      rw [List.append_assoc]
      exact .removal s t _ i first last gone _ _ _ inOrder rows (ih h')
  | insertion s t u i first handles more script resets nonempty rows _ ih =>
      rw [List.append_assoc]
      exact .insertion s t _ i first handles _ _ _ nonempty rows (ih h')
  | reset s t u gone more script resets _ ih =>
      rw [List.append_assoc, Nat.add_right_comm]
      exact .reset s t _ gone _ _ _ (ih h')

/-- The script is what the announcements stand for. -/
theorem script_eq (h : Narrates s trace script n t) : trace.filterMap Notice.edit = script := by
  induction h with
  | nil s => rfl
  | removal s t u i first last gone rest script resets inOrder rows _ ih =>
      rw [List.filterMap_append, List.filterMap_append, edits_farewell, List.append_nil, ih]
      rfl
  | insertion s t u i first handles rest script resets nonempty rows _ ih =>
      rw [List.filterMap_append, ih]
      exact congrArg (fun rows => Edit.insert i.node first rows :: script) rows
  | reset s t u gone rest script resets _ ih =>
      rw [List.filterMap_append, List.filterMap_append, edits_farewell, ih]
      rfl

/-- A story without edits or resets tells nothing, and nothing changed. -/
theorem idle (h : Narrates s trace [] 0 t) : trace = [] ∧ t = s := by
  cases h
  exact ⟨rfl, rfl⟩

/-- The resets are those that were announced. -/
theorem resets_eq (h : Narrates s trace script n t) : trace.countP Notice.isReset = n := by
  have hquiet : ∀ gone t, (farewell gone t).countP Notice.isReset = 0 := by
    intro gone t
    rw [List.countP_eq_zero]
    exact List.any_eq_false.mp (quiet_farewell gone t).2.2
  induction h with
  | nil s => rfl
  | removal s t u i first last gone rest script resets inOrder rows _ ih =>
      rw [List.countP_append, List.countP_append, hquiet, ih]
      exact Nat.zero_add resets
  | insertion s t u i first handles rest script resets nonempty rows _ ih =>
      rw [List.countP_append, ih]
      exact Nat.zero_add resets
  | reset s t u gone rest script resets _ ih =>
      rw [List.countP_append, List.countP_append, hquiet, ih]
      exact Nat.add_comm 1 resets

end Stories

section Sums

variable {s t : Store} {trace : List Notice} {script : Script} {n : Nat}

-- What goes with a removal and the deletions after it are the announced rows.
theorem rows_of_removal (i : Index) (first last : Nat) (s t : Store) (gone : List Handle)
    (rest : List Notice) :
    (TreeWatch.removal i first last s t ++ farewell gone t ++ rest).flatMap Notice.removed =
        s.rowsAt (some i) first last ++ rest.flatMap Notice.removed ∧
      (TreeWatch.removal i first last s t ++ farewell gone t ++ rest).flatMap Notice.inserted =
        rest.flatMap Notice.inserted := by
  rcases quiet_farewell gone t with ⟨hremoved, hinserted, _⟩
  simp only [List.flatMap_append, Pass.removed_removal, Pass.inserted_removal, hremoved, hinserted,
    List.append_nil, List.nil_append, and_self]

-- What comes with an insertion are the announced rows.
theorem rows_of_insertion (i : Index) (first last : Nat) (s t : Store) (rest : List Notice) :
    (TreeWatch.insertion i first last s t ++ rest).flatMap Notice.removed =
        rest.flatMap Notice.removed ∧
      (TreeWatch.insertion i first last s t ++ rest).flatMap Notice.inserted =
        t.rowsAt (some i) first last ++ rest.flatMap Notice.inserted := by
  simp only [List.flatMap_append, Pass.removed_insertion, Pass.inserted_insertion,
    List.nil_append, and_self]

-- Nothing goes or comes with a new model.
theorem rows_of_replacement (s t : Store) (gone : List Handle) (rest : List Notice) :
    (replacement s t ++ farewell gone t ++ rest).flatMap Notice.removed =
        rest.flatMap Notice.removed ∧
      (replacement s t ++ farewell gone t ++ rest).flatMap Notice.inserted =
        rest.flatMap Notice.inserted := by
  rcases quiet_farewell gone t with ⟨hremoved, hinserted, _⟩
  rw [List.flatMap_append, List.flatMap_append, hremoved, List.flatMap_append,
    List.flatMap_append, hinserted]
  exact ⟨rfl, rfl⟩

-- An edit is added to the sum if the sum fits.
theorem foldlM_rowCount_cons (acc count : Nat) (e : Edit) (edits : List Edit)
    (he : e.rowCount = .ok count) (hfit : acc + count < Text.wordBound) :
    (e :: edits).foldlM (fun n e => do addCounts n (← e.rowCount)) acc =
      edits.foldlM (fun n e => do addCounts n (← e.rowCount)) (acc + count) := by
  rw [List.foldlM_cons]
  simp only [he, bind, Except.bind, addCounts, if_pos hfit]

/-- The removals of the script add up to the rows that went away. -/
theorem removed_sum (h : Narrates s trace script n t) (acc : Nat)
    (hfit : acc + (trace.flatMap Notice.removed).length < Text.wordBound) :
    (script.filter Edit.isRemove).foldlM (fun n e => do addCounts n (← e.rowCount)) acc =
      .ok (acc + (trace.flatMap Notice.removed).length) := by
  induction h generalizing acc with
  | nil s => rfl
  | removal s t u i first last gone rest script resets inOrder rows _ ih =>
      rw [(rows_of_removal i first last s t gone rest).1, List.length_append, rows,
        ← Nat.add_assoc] at hfit ⊢
      have hcount : (Edit.remove i.node first last).rowCount = .ok (last + 1 - first) := by
        have hsum : last - first + 1 < Text.wordBound := by omega
        simp only [Edit.rowCount, subtractCounts, if_pos inOrder, bind, Except.bind, addCounts,
          if_pos hsum]
        exact congrArg Except.ok (by omega)
      rw [List.filter_cons_of_pos (by rfl), foldlM_rowCount_cons acc _ _ _ hcount (by omega)]
      exact ih _ hfit
  | insertion s t u i first handles rest script resets nonempty rows _ ih =>
      rw [(rows_of_insertion i first _ s t rest).1] at hfit ⊢
      exact ih acc hfit
  | reset s t u gone rest script resets _ ih =>
      rw [(rows_of_replacement s t gone rest).1] at hfit ⊢
      exact ih acc hfit

/-- The insertions of the script add up to the rows that came. -/
theorem inserted_sum (h : Narrates s trace script n t) (acc : Nat)
    (hfit : acc + (trace.flatMap Notice.inserted).length < Text.wordBound) :
    (script.filter fun e => !e.isRemove).foldlM (fun n e => do addCounts n (← e.rowCount)) acc =
      .ok (acc + (trace.flatMap Notice.inserted).length) := by
  induction h generalizing acc with
  | nil s => rfl
  | removal s t u i first last gone rest script resets inOrder rows _ ih =>
      rw [(rows_of_removal i first last s t gone rest).2] at hfit ⊢
      exact ih acc hfit
  | insertion s t u i first handles rest script resets nonempty rows _ ih =>
      rw [(rows_of_insertion i first _ s t rest).2, List.length_append, rows,
        ← Nat.add_assoc] at hfit ⊢
      rw [List.filter_cons_of_pos (by rfl),
        foldlM_rowCount_cons acc handles.length _ _ rfl (by omega)]
      exact ih _ hfit
  | reset s t u gone rest script resets _ ih =>
      rw [(rows_of_replacement s t gone rest).2] at hfit ⊢
      exact ih acc hfit

/-- The row counts of a script are those of the trace, as long as these fit a
    machine word. -/
theorem rowSums (h : Narrates s trace script n t) :
    ((trace.flatMap Notice.removed).length < Text.wordBound →
      script.removedRows = .ok (trace.flatMap Notice.removed).length) ∧
    ((trace.flatMap Notice.inserted).length < Text.wordBound →
      script.insertedRows = .ok (trace.flatMap Notice.inserted).length) := by
  refine ⟨fun hfit => ?_, fun hfit => ?_⟩
  · have hsum := h.removed_sum 0 (by omega)
    rwa [Nat.zero_add] at hsum
  · have hsum := h.inserted_sum 0 (by omega)
    rwa [Nat.zero_add] at hsum

end Sums

end Narrates

namespace Pass

-- Rows of a list are as many as they are.
theorem length_rowsAt (s : Store) (i : Index) (front rows back : List Handle)
    (hkids : s.children i.node = front ++ rows ++ back) (hne : rows ≠ []) :
    (s.rowsAt (some i) front.length (front.length + rows.length - 1)).length =
      front.length + rows.length - 1 + 1 - front.length := by
  have hpos : 0 < rows.length := List.length_pos_iff.mpr hne
  rw [s.rowsAt_eq i front rows back hkids hne]
  omega

section Courses

variable (live : Snapshot)

/-- An act is a story. -/
theorem Act.narrates (s t : Store) (trace : List Notice) (h : Act live s trace t) :
    ∃ script, Narrates s trace script 0 t := by
  cases h with
  | removal _ i front rows back gone spare cuts untracked =>
      have hpos : 0 < rows.length := List.length_pos_iff.mpr spare.nonempty
      have hstory := Narrates.removal s t t i front.length (front.length + rows.length - 1) gone []
        [] 0 (by omega) (length_rowsAt s i front rows back spare.kids spare.nonempty) (.nil t)
      rw [List.append_nil] at hstory
      exact ⟨_, hstory⟩
  | move _ i j h front back front' back' stray rows rows' sound root links =>
      have hone := List.cons_ne_nil h []
      have hin := Narrates.insertion (s.detach h).2 t t j front'.length [h] [] [] 0 hone
        (t.rowsAt_eq j front' [h] back' rows' hone) (.nil t)
      have hout := Narrates.removal s (s.detach h).2 t i front.length (front.length + 1 - 1) [] _ _
        0 (by omega) (length_rowsAt s i front [h] back rows hone) hin
      rw [List.append_nil] at hout
      exact ⟨_, hout⟩
  | insertion _ i front batch back fresh planted rows =>
      have hstory := Narrates.insertion s t t i front.length batch [] [] 0 fresh.nonempty
        (t.rowsAt_eq i front batch back rows fresh.nonempty) (.nil t)
      rw [List.append_nil] at hstory
      exact ⟨_, hstory⟩

/-- So is a course of acts. -/
theorem Course.narrates (s t : Store) (trace : List Notice) (h : Course live s trace t) :
    ∃ script, Narrates s trace script 0 t := by
  induction h with
  | nil s => exact ⟨[], .nil s⟩
  | cons s t u trace rest act _ ih =>
      rcases act.narrates live s t trace with ⟨script, hact⟩
      rcases ih with ⟨more, hrest⟩
      exact ⟨script ++ more, hact.append hrest⟩

end Courses

end Pass

end TreeWatch
