/-
Abacus.Session.Variables — the variables of a session.

Names with their values, in the order of the names.  Each name occurs once,
so looking a name up after an insertion finds what was inserted last.
-/
import Abacus.NumberSystem

namespace Abacus

/-- Names with values, sorted by name. -/
structure Variables where
  entries : List (String × Binary64)
  sorted : entries.Pairwise (fun a b => a.1 < b.1)
deriving DecidableEq, Repr

namespace Variables

/-- No variables. -/
def empty : Variables := ⟨[], .nil⟩

instance : EmptyCollection Variables := ⟨empty⟩

/-- The value of a name. -/
def get? (vars : Variables) (name : String) : Option Binary64 :=
  vars.entries.lookup name

/-- The names in order. -/
def names (vars : Variables) : List String :=
  vars.entries.map (·.1)

/-- Put an entry in its place in a sorted list, over an entry of the same
name. -/
def insertEntry (name : String) (value : Binary64) :
    List (String × Binary64) → List (String × Binary64)
  | [] => [(name, value)]
  | entry :: entries =>
    if name < entry.1 then (name, value) :: entry :: entries
    else if name = entry.1 then (name, value) :: entries
    else entry :: insertEntry name value entries

theorem mem_insertEntry {name : String} {value : Binary64} {e : String × Binary64} :
    ∀ {entries : List (String × Binary64)}, e ∈ insertEntry name value entries →
      e = (name, value) ∨ e ∈ entries
  | [], h => by simp_all [insertEntry]
  | entry :: entries, h => by
    unfold insertEntry at h
    split at h
    · simpa using h
    · split at h
      · rcases List.mem_cons.1 h with h | h
        · exact .inl h
        · exact .inr (List.mem_cons_of_mem _ h)
      · rcases List.mem_cons.1 h with h | h
        · exact .inr (h ▸ List.mem_cons_self)
        · exact (mem_insertEntry h).imp id (List.mem_cons_of_mem _)

theorem lt_of_not_lt_of_ne {a b : String} (h : ¬a < b) (hne : a ≠ b) : b < a :=
  Decidable.byContradiction fun hba =>
    hne (String.le_antisymm (String.not_lt.1 hba) (String.not_lt.1 h))

theorem sorted_insertEntry (name : String) (value : Binary64) :
    ∀ {entries : List (String × Binary64)}, entries.Pairwise (fun a b => a.1 < b.1) →
      (insertEntry name value entries).Pairwise (fun a b => a.1 < b.1)
  | [], _ => by simp [insertEntry]
  | entry :: entries, h => by
    have hs := List.pairwise_cons.1 h
    unfold insertEntry
    split
    · rename_i hlt
      refine List.pairwise_cons.2 ⟨fun e he => ?_, h⟩
      rcases List.mem_cons.1 he with rfl | he
      · exact hlt
      · exact String.lt_trans hlt (hs.1 e he)
    · split
      · rename_i heq
        exact List.pairwise_cons.2 ⟨fun e he => heq ▸ hs.1 e he, hs.2⟩
      · rename_i hlt hne
        refine List.pairwise_cons.2 ⟨fun e he => ?_, sorted_insertEntry name value hs.2⟩
        rcases mem_insertEntry he with rfl | he
        · exact lt_of_not_lt_of_ne hlt hne
        · exact hs.1 e he

/-- Give a name a value, in place of the one it had. -/
def insert (vars : Variables) (name : String) (value : Binary64) : Variables :=
  ⟨insertEntry name value vars.entries, sorted_insertEntry name value vars.sorted⟩

theorem lookup_insertEntry_self (name : String) (value : Binary64) :
    ∀ entries, (insertEntry name value entries).lookup name = some value
  | [] => by simp [insertEntry]
  | (key, _) :: entries => by
    unfold insertEntry
    split
    · simp
    · split
      · simp
      · rename_i hne
        have hkey : (name == key) = false := by simpa using hne
        simp [List.lookup_cons, hkey, lookup_insertEntry_self name value entries]

theorem lookup_insertEntry_of_ne {name other : String} (h : other ≠ name) (value : Binary64) :
    ∀ entries, (insertEntry name value entries).lookup other = entries.lookup other
  | [] => by
    have hname : (other == name) = false := by simpa using h
    simp [insertEntry, List.lookup_cons, hname]
  | (key, _) :: entries => by
    have hname : (other == name) = false := by simpa using h
    unfold insertEntry
    split
    · simp [List.lookup_cons, hname]
    · split
      · rename_i hkey
        subst hkey
        simp [List.lookup_cons, hname]
      · rw [List.lookup_cons, List.lookup_cons, lookup_insertEntry_of_ne h value entries]

theorem get?_insert_self (vars : Variables) (name : String) (value : Binary64) :
    (vars.insert name value).get? name = some value :=
  lookup_insertEntry_self name value vars.entries

theorem get?_insert_of_ne (vars : Variables) {name other : String} (h : other ≠ name)
    (value : Binary64) : (vars.insert name value).get? other = vars.get? other :=
  lookup_insertEntry_of_ne h value vars.entries

end Variables

end Abacus
