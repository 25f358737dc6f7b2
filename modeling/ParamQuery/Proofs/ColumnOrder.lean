/-
The order of the columns of a table. Whatever columns have been added, and in
whatever places, one more goes to the end or to the place it asks for, as far as
there is one (`ofList_inserts`).

A column with a place makes the whole list be built anew. That changes nothing:
the columns are numbered by then, and each is put behind those in front of it
(`replay_renumber`). For the same reason a list of columns that were added one
by one is what adding its own columns gives (`ofList_toList`).
-/
import ParamQuery.Schema.Column
import Mathlib.Data.List.Induction
import Mathlib.Data.List.InsertIdx

namespace ParamQuery

/-- A column without its position. -/
def Column.unplaced (c : Column) : Column := { c with position := none }

namespace Columns

/-! ## Numbers -/

@[simp] theorem length_renumber (cs : List Column) : (renumber cs).length = cs.length := List.length_mapIdx

theorem renumber_concat (cs : List Column) (c : Column) :
    renumber (cs ++ [c]) = renumber cs ++ [{ c with position := some cs.length }] := List.mapIdx_concat

theorem renumber_renumber (cs : List Column) : renumber (renumber cs) = renumber cs := List.mapIdx_mapIdx

theorem map_unplaced_renumber (cs : List Column) : (renumber cs).map Column.unplaced = cs.map Column.unplaced :=
  List.ext_getElem (by simp) (by simp [renumber, Column.unplaced])

theorem map_position_renumber (cs : List Column) : (renumber cs).map (·.position) = (List.range cs.length).map some :=
  List.ext_getElem (by simp) (by simp [renumber])

/-- A column at the end of numbered ones, whatever place it asked for. -/
theorem renumber_renumber_concat (cs : List Column) (c : Column) (position : Option Nat) :
    renumber (renumber cs ++ [{ c with position := position }]) = renumber (cs ++ [c]) := by
  rw [renumber_concat, renumber_concat, renumber_renumber, length_renumber]

/-! ## Building anew -/

/-- A column whose number is the next one goes to the end. -/
theorem put_renumber (cs : List Column) (c : Column) :
    put (renumber cs) { c with position := some cs.length } = renumber (cs ++ [c]) := by
  have hend : (renumber cs).insertIdx (min cs.length (renumber cs).length) { c with position := some cs.length } =
      renumber cs ++ [{ c with position := some cs.length }] := by
    rw [← length_renumber cs, Nat.min_self, List.insertIdx_length_self]
  show renumber _ = _
  rw [hend, renumber_renumber_concat]

/-- **Building numbered columns anew changes nothing.** -/
theorem replay_renumber (cs : List Column) : replay (renumber cs) = renumber cs := by
  induction cs using List.reverseRecOn with
  | nil => rfl
  | append_singleton cs c ih =>
    rw [replay] at ih ⊢
    conv_lhs => rw [renumber_concat]
    rw [List.foldl_append, ih]
    exact put_renumber cs c

theorem replay_place (cs : List Column) (c : Column) (position : Nat) :
    replay (place cs c position) = place cs c position := replay_renumber _

/-- Adding a column is putting it in its place once. -/
theorem toList_add (cs : Columns) (c : Column) : (cs.add c).toList = put cs.toList c := by
  unfold add put
  cases c.position with
  | none => rfl
  | some position => exact replay_place _ _ _

/-- Where a column is put among so many others. -/
def target (c : Column) (size : Nat) : Nat := min (c.position.getD size) size

theorem map_unplaced_put (cs : List Column) (c : Column) :
    (put cs c).map Column.unplaced = (cs.map Column.unplaced).insertIdx (target c cs.length) c.unplaced := by
  unfold put target
  cases c.position with
  | none =>
    rw [Option.getD_none, Nat.min_self, ← List.length_map Column.unplaced, List.insertIdx_length_self, List.map_append]
    rfl
  | some position =>
    show (renumber _).map _ = _
    rw [map_unplaced_renumber, List.map_insertIdx]
    rfl

/-! ## Histories -/

/-- The columns in front are numbered, and those behind have no position. -/
def IsNumbered (cs : List Column) : Prop :=
  ∃ front back, cs = renumber front ++ back ∧ ∀ c ∈ back, c.position = none

theorem IsNumbered.put {cs : List Column} (h : IsNumbered cs) (c : Column) : IsNumbered (put cs c) := by
  unfold Columns.put
  cases hc : c.position with
  | none =>
    obtain ⟨front, back, rfl, hback⟩ := h
    refine ⟨front, back ++ [c], by simp, fun d hd => ?_⟩
    rcases List.mem_append.1 hd with hd | hd
    · exact hback d hd
    · rw [List.mem_singleton.1 hd, hc]
  | some position => exact ⟨cs.insertIdx (min position cs.length) c, [], by simp [place], by simp⟩

theorem IsNumbered.positions {cs : List Column} (h : IsNumbered cs) :
    ∃ k ≤ cs.length, cs.map (·.position) = (List.range k).map some ++ List.replicate (cs.length - k) none := by
  obtain ⟨front, back, rfl, hback⟩ := h
  refine ⟨front.length, by simp, ?_⟩
  rw [List.map_append, map_position_renumber, List.append_cancel_left_eq]
  exact List.eq_replicate_iff.2 ⟨by simp, by simpa using hback⟩

theorem toList_foldl_add (cs : Columns) (later : List Column) :
    (later.foldl add cs).toList = later.foldl put cs.toList := by
  induction later generalizing cs with
  | nil => rfl
  | cons c later ih => rw [List.foldl_cons, ih, toList_add, List.foldl_cons]

theorem toList_ofList (history : List Column) : (ofList history).toList = history.foldl put [] :=
  toList_foldl_add empty history

theorem ofList_append (history later : List Column) : ofList (history ++ later) = later.foldl add (ofList history) :=
  List.foldl_append

theorem isNumbered_ofList (history : List Column) : IsNumbered (ofList history).toList := by
  rw [toList_ofList]
  induction history using List.reverseRecOn with
  | nil => exact ⟨[], [], rfl, by simp⟩
  | append_singleton history c ih =>
    rw [List.foldl_append]
    exact ih.put c

theorem IsNumbered.ofList_eq {cs : List Column} (h : IsNumbered cs) : (ofList cs).toList = cs := by
  obtain ⟨front, back, rfl, hback⟩ := h
  rw [toList_ofList, List.foldl_append]
  have hfront : (renumber front).foldl Columns.put [] = renumber front := replay_renumber front
  rw [hfront]
  -- what has no position is put behind, column by column
  generalize renumber front = done
  induction back generalizing done with
  | nil => simp
  | cons c back ih =>
    have hput : Columns.put done c = done ++ [c] := by
      simp [Columns.put, hback c (by simp)]
    rw [List.foldl_cons, hput, ih fun d hd => hback d (by simp [hd])]
    simp

/-- Adding the columns of a list that was built by adding gives that list. -/
theorem ofList_toList (history : List Column) : ofList (ofList history).toList = ofList history :=
  congrArg Columns.mk (isNumbered_ofList history).ofList_eq

theorem perm_put (cs : List Column) (c : Column) :
    ((put cs c).map Column.unplaced).Perm (c.unplaced :: cs.map Column.unplaced) := by
  have htarget : target c cs.length ≤ (cs.map Column.unplaced).length := by
    rw [List.length_map]
    exact Nat.min_le_right _ _
  rw [map_unplaced_put]
  exact List.perm_insertIdx _ _ htarget

theorem perm_ofList (history : List Column) :
    ((ofList history).toList.map Column.unplaced).Perm (history.map Column.unplaced) := by
  rw [toList_ofList]
  induction history using List.reverseRecOn with
  | nil => rfl
  | append_singleton history c ih =>
    rw [List.foldl_append, List.map_append]
    exact (perm_put _ c).trans ((ih.cons _).trans (List.perm_append_singleton _ _).symm)

theorem sublist_put (cs : List Column) (c : Column) :
    (cs.map Column.unplaced).Sublist ((put cs c).map Column.unplaced) := by
  rw [map_unplaced_put]
  exact List.sublist_insertIdx _ _ _

theorem sublist_ofList_append (history later : List Column) :
    ((ofList history).toList.map Column.unplaced).Sublist
      ((ofList (history ++ later)).toList.map Column.unplaced) := by
  rw [ofList_append, toList_foldl_add]
  generalize (ofList history).toList = cs
  induction later generalizing cs with
  | nil => exact .refl _
  | cons c later ih => exact (sublist_put cs c).trans (ih _)

/-- **Columns are inserted where they ask to be.** After any history, a column
without a position goes to the end as it is; one with a position is inserted
there, or at the end when the list is shorter, and every column is numbered,
which building the list anew leaves as it is. So the numbered columns come first,
each at its number, nothing but positions ever changes, and no two columns change
their order. -/
theorem ofList_inserts (history : List Column) :
    (∀ c : Column, c.position = none → ((ofList history).add c).toList = (ofList history).toList ++ [c]) ∧
      (∀ (c : Column) (p : Nat) (inserted : List Column), c.position = some p →
        inserted = ((ofList history).toList.insertIdx (min p (ofList history).size) c).mapIdx
          (fun i d => { d with position := some i }) →
        replay inserted = inserted ∧ ((ofList history).add c).toList = inserted) ∧
      (∃ k ≤ (ofList history).size, (ofList history).toList.map (·.position) =
        (List.range k).map some ++ List.replicate ((ofList history).size - k) none) ∧
      (ofList history).size = history.length ∧
      ((ofList history).toList.map Column.unplaced).Perm (history.map Column.unplaced) ∧
      ∀ later : List Column, later.foldl add (ofList history) = ofList (history ++ later) ∧
        ((ofList history).toList.map Column.unplaced).Sublist
          ((ofList (history ++ later)).toList.map Column.unplaced) := by
  refine ⟨fun c hc => ?_, fun c p inserted hc hinserted => ?_, (isNumbered_ofList history).positions, ?_,
    perm_ofList history, fun later => ⟨(ofList_append history later).symm, sublist_ofList_append history later⟩⟩
  · rw [toList_add, put, hc]
  · subst hinserted
    refine ⟨replay_renumber _, ?_⟩
    rw [toList_add, put, hc]
    rfl
  · simpa [size] using (perm_ofList history).length_eq

/-- Columns with and without positions, one beyond the end. -/
def mixedColumns : List Column :=
  [{ dbName := "name" }, { dbName := "mail", position := some 10 }, { dbName := "id", position := some 0 },
    { dbName := "note" }]

/-- A position is given to the columns behind as well. -/
theorem mixedColumns_insert :
    ((ofList mixedColumns).add { dbName := "key", position := some 1 }).toList =
      [{ dbName := "id", position := some 0 }, { dbName := "key", position := some 1 },
        { dbName := "name", position := some 2 }, { dbName := "mail", position := some 3 },
        { dbName := "note", position := some 4 }] ∧
      ((ofList mixedColumns).add { dbName := "tag" }).toList =
        [{ dbName := "id", position := some 0 }, { dbName := "name", position := some 1 },
          { dbName := "mail", position := some 2 }, { dbName := "note" }, { dbName := "tag" }] :=
  ⟨((ofList_inserts mixedColumns).2.1 _ 1 _ rfl (by decide)).2, (ofList_inserts mixedColumns).1 _ rfl⟩

end Columns

end ParamQuery
