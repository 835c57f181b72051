-- SUMMARY: Values listed by name in ascending order.

/-!
# Values by name

Names are strings, ordered by code points, or of any other type with an order.
Each name stands once, so equal collections are equal as data.
-/

namespace Munch

structure ByName (β : Type) (κ : Type := String) [Ord κ] where
  entries : List (κ × β)
  ascending : entries.Pairwise fun a b => compare a.1 b.1 = .lt
deriving DecidableEq

namespace ByName

variable {β κ : Type} [Ord κ]

def empty : ByName β κ := ⟨[], .nil⟩

instance : Inhabited (ByName β κ) := ⟨empty⟩

/-- Puts a value at its name's place, instead of one that the name had before. -/
def insertEntry (name : κ) (value : β) : List (κ × β) → List (κ × β)
  | [] => [(name, value)]
  | e :: rest =>
    match compare name e.1 with
    | .lt => (name, value) :: e :: rest
    | .gt => e :: insertEntry name value rest
    | .eq => (e.1, value) :: rest

theorem name_of_mem_insertEntry {name : κ} {value : β} {entries : List (κ × β)} {e : κ × β}
    (h : e ∈ insertEntry name value entries) : e.1 = name ∨ ∃ e' ∈ entries, e.1 = e'.1 := by
  induction entries with
  | nil => simp only [insertEntry, List.mem_singleton] at h; exact .inl (h ▸ rfl)
  | cons n rest ih =>
    simp only [insertEntry] at h
    split at h
    · rcases List.mem_cons.1 h with rfl | h
      · exact .inl rfl
      · exact .inr ⟨e, h, rfl⟩
    · rcases List.mem_cons.1 h with rfl | h
      · exact .inr ⟨e, List.mem_cons_self, rfl⟩
      · exact (ih h).imp_right fun ⟨e', he', heq⟩ => ⟨e', List.mem_cons_of_mem _ he', heq⟩
    · rcases List.mem_cons.1 h with rfl | h
      · exact .inr ⟨n, List.mem_cons_self, rfl⟩
      · exact .inr ⟨e, List.mem_cons_of_mem _ h, rfl⟩

variable [Std.TransOrd κ]

theorem ascending_insertEntry {name : κ} {value : β} {entries : List (κ × β)}
    (h : entries.Pairwise fun a b => compare a.1 b.1 = .lt) :
    (insertEntry name value entries).Pairwise fun a b => compare a.1 b.1 = .lt := by
  induction entries with
  | nil => exact List.pairwise_singleton ..
  | cons n rest ih =>
    have hn := List.pairwise_cons.1 h
    simp only [insertEntry]
    split
    case h_1 hlt =>
      refine List.pairwise_cons.2 ⟨fun e he => ?_, h⟩
      rcases List.mem_cons.1 he with rfl | he
      · exact hlt
      · exact Std.TransCmp.lt_trans hlt (hn.1 e he)
    case h_2 hgt =>
      refine List.pairwise_cons.2 ⟨fun e he => ?_, ih hn.2⟩
      rcases name_of_mem_insertEntry he with heq | ⟨e', he', heq⟩
      · rw [heq]; exact Std.OrientedCmp.gt_iff_lt.1 hgt
      · rw [heq]; exact hn.1 e' he'
    case h_3 => exact List.pairwise_cons.2 hn

def insert (m : ByName β κ) (name : κ) (value : β) : ByName β κ :=
  ⟨insertEntry name value m.entries, ascending_insertEntry m.ascending⟩

/-- The given entries; of several for one name the last counts. -/
def ofList (entries : List (κ × β)) : ByName β κ :=
  entries.foldl (fun m e => m.insert e.1 e.2) empty

/-! ## Entries that ascend -/

theorem insertEntry_of_forall_lt {name : κ} {value : β} {entries : List (κ × β)}
    (h : ∀ e ∈ entries, compare e.1 name = .lt) :
    insertEntry name value entries = entries ++ [(name, value)] := by
  induction entries with
  | nil => rfl
  | cons e rest ih =>
    obtain ⟨he, hrest⟩ := List.forall_mem_cons.1 h
    rw [insertEntry, Std.OrientedCmp.gt_iff_lt.2 he, List.cons_append, ← ih hrest]

theorem entries_foldl_insert {m : ByName β κ} {entries : List (κ × β)}
    (h : (m.entries ++ entries).Pairwise fun a b => compare a.1 b.1 = .lt) :
    (entries.foldl (fun m e => m.insert e.1 e.2) m).entries = m.entries ++ entries := by
  induction entries generalizing m with
  | nil => exact (List.append_nil _).symm
  | cons e rest ih =>
    have hlast : (m.insert e.1 e.2).entries = m.entries ++ [e] :=
      insertEntry_of_forall_lt fun e' he' =>
        (List.pairwise_append.1 h).2.2 e' he' e List.mem_cons_self
    have hassoc : (m.insert e.1 e.2).entries ++ rest = m.entries ++ e :: rest := by
      rw [hlast, List.append_assoc, List.singleton_append]
    rw [List.foldl_cons, ih (hassoc ▸ h), hassoc]

theorem entries_ofList {entries : List (κ × β)}
    (h : entries.Pairwise fun a b => compare a.1 b.1 = .lt) : (ofList entries).entries = entries :=
  entries_foldl_insert h

theorem ofList_entries (m : ByName β κ) : ofList m.entries = m := by
  cases m with
  | mk entries ascending =>
    rw [mk.injEq]
    exact entries_ofList ascending

/-! ## Reading -/

omit [Std.TransOrd κ]

def names (m : ByName β κ) : List κ := m.entries.map Prod.fst

def get? (m : ByName β κ) (name : κ) : Option β :=
  (m.entries.find? fun e => compare name e.1 == .eq).map Prod.snd

end ByName

end Munch
