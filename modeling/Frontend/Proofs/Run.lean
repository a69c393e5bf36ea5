import Mathlib.Data.List.Basic

/-!
# Runs

Trees and type graphs keep lists of ids as runs of words in a side array. Such
arrays only grow at their end, so a run stays where it was written.
-/

namespace Frontend

variable {Item : Type}

theorem size_append_list (items : Array Item) (more : List Item) :
    (items ++ more).size = items.size + more.length := by
  rw [← Array.length_toList, Array.toList_appendList, List.length_append,
    Array.length_toList]

/-- What lies inside an array is not changed by what is appended. -/
theorem extract_append_list
    (items : Array Item)
    (more : List Item)
    (start : Nat)
    {stop : Nat}
    (inside : stop ≤ items.size) :
    (items ++ more).extract start stop = items.extract start stop := by
  apply Array.ext'
  simp only [Array.toList_extract, Array.toList_appendList, List.extract_eq_take_drop]
  by_cases ordered : start ≤ stop
  · rw [List.drop_append_of_le_length (by simpa using Nat.le_trans ordered inside),
      List.take_append_of_le_length (by simp; omega)]
  · rw [Nat.sub_eq_zero_of_le (by omega)]
    simp

/-- What was appended to an array is found at its end. -/
theorem extract_append_list_self (items : Array Item) (more : List Item) :
    ((items ++ more).extract items.size (items ++ more).size).toList = more := by
  rw [Array.toList_extract, Array.toList_appendList, List.extract_eq_take_drop,
    List.drop_left' (by simp), size_append_list, Nat.add_sub_cancel_left,
    List.take_length]

theorem getElem?_append_list (items : Array Item) (more : List Item) (offset : Nat) :
    (items ++ more)[items.size + offset]? = more[offset]? := by
  rw [← Array.getElem?_toList, Array.toList_appendList,
    List.getElem?_append_right (by rw [Array.length_toList]; exact Nat.le_add_right _ _),
    Array.length_toList, Nat.add_sub_cancel_left]

/-- The second array starts with the items of the first one. -/
def Extends (items longer : Array Item) : Prop :=
  ∃ more : List Item, longer = items ++ more

namespace Extends

variable {items longer longest : Array Item}

theorem refl (items : Array Item) : Extends items items :=
  ⟨[], by simp⟩

theorem append (items : Array Item) (more : List Item) : Extends items (items ++ more) :=
  ⟨more, rfl⟩

theorem push (items : Array Item) (item : Item) : Extends items (items.push item) :=
  ⟨[item], by simp⟩

theorem trans (first : Extends items longer) (second : Extends longer longest) :
    Extends items longest := by
  obtain ⟨more, rfl⟩ := first
  obtain ⟨evenMore, rfl⟩ := second
  refine ⟨more ++ evenMore, ?_⟩
  apply Array.ext'
  simp only [Array.toList_appendList, List.append_assoc]

theorem size_le (extended : Extends items longer) : items.size ≤ longer.size := by
  obtain ⟨more, rfl⟩ := extended
  rw [size_append_list]
  exact Nat.le_add_right _ _

theorem getElem?_eq
    (extended : Extends items longer)
    {index : Nat}
    (inside : index < items.size) :
    longer[index]? = items[index]? := by
  obtain ⟨more, rfl⟩ := extended
  rw [← Array.getElem?_toList, ← Array.getElem?_toList, Array.toList_appendList,
    List.getElem?_append_left (by simpa using inside)]

/-- What an array holds somewhere, it still holds when it is longer. -/
theorem getElem?_eq_some
    (extended : Extends items longer)
    {index : Nat}
    {item : Item}
    (present : items[index]? = some item) :
    longer[index]? = some item := by
  rw [extended.getElem?_eq (Array.getElem?_eq_some_iff.mp present).1, present]

end Extends

/-- The words stand in the array from `start` on. -/
def StandsAt (array : Array Nat) (start : Nat) (words : List Nat) : Prop :=
  start + words.length ≤ array.size ∧
    (array.extract start (start + words.length)).toList = words

namespace StandsAt

variable {array longer : Array Nat} {start : Nat} {words others : List Nat}

/-- Words stand where they were appended. -/
theorem append_self (array : Array Nat) (words : List Nat) :
    StandsAt (array ++ words) array.size words := by
  have appended := extract_append_list_self array words
  rw [size_append_list] at appended
  exact ⟨Nat.le_of_eq (size_append_list array words).symm, appended⟩

theorem extend (standing : StandsAt array start words) (extended : Extends array longer) :
    StandsAt longer start words := by
  obtain ⟨more, rfl⟩ := extended
  refine ⟨Nat.le_trans standing.1 (Extends.append array more).size_le, ?_⟩
  rw [extract_append_list _ _ _ standing.1]
  exact standing.2

/-- Only one list of a given length stands at a place. -/
theorem unique
    (standing : StandsAt array start words)
    (other : StandsAt array start others)
    (sameLength : words.length = others.length) :
    words = others := by
  rw [← standing.2, sameLength, other.2]

end StandsAt

end Frontend
