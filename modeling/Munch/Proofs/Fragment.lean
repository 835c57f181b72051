-- SUMMARY: The words of sequences, alternatives and repetitions, also without their trivial cases.
import Munch.Fragment.Language
import Munch.RangeSet.Lemmas

/-! # Languages of fragments

What a fragment matches is read off its parts. The functions that leave out
trivial cases change nothing about it. -/

namespace Munch.Fragment

variable {σ : Type} [Symbol σ] {item body : Fragment σ} {items : List (Fragment σ)}
  {optional repeating : Bool} {u v w : List σ}

/-! ## Parts -/

theorem not_matches_nothing : ¬ Matches (nothing : Fragment σ) w := nofun

theorem matches_emptyString : Matches (emptyString : Fragment σ) w ↔ w = [] := by
  constructor
  · intro h
    cases h
    rfl
  · rintro rfl
    exact .emptyString

theorem matches_oneOf {set : RangeSet σ} : Matches (oneOf set) w ↔ ∃ x ∈ set, w = [x] := by
  constructor
  · intro h
    cases h with
    | oneOf hx => exact ⟨_, hx, rfl⟩
  · rintro ⟨x, hx, rfl⟩
    exact .oneOf hx

theorem matches_sequence_nil : Matches (sequence ([] : List (Fragment σ))) w ↔ w = [] := by
  constructor
  · intro h
    cases h
    rfl
  · rintro rfl
    exact .done

theorem matches_sequence_cons : Matches (sequence (item :: items)) w ↔
    ∃ u v, w = u ++ v ∧ Matches item u ∧ Matches (sequence items) v := by
  constructor
  · intro h
    cases h with
    | next hitem hitems => exact ⟨_, _, rfl, hitem, hitems⟩
  · rintro ⟨u, v, rfl, hitem, hitems⟩
    exact .next hitem hitems

theorem matches_alternative : Matches (alternative items) w ↔ ∃ item ∈ items, Matches item w := by
  constructor
  · intro h
    cases h with
    | branch hmem hitem => exact ⟨_, hmem, hitem⟩
  · rintro ⟨item, hmem, hitem⟩
    exact .branch hmem hitem

/-- One more turn at the end. -/
theorem Matches.snoc (hu : Matches (optRep body optional true) u) (hv : Matches body v) :
    Matches (optRep body optional true) (u ++ v) := by
  generalize hf : optRep body optional true = f at hu
  induction hu with
  | skip =>
    cases hf
    exact .once hv
  | once hbody =>
    cases hf
    exact .again hbody (.once hv)
  | again hbody _ _ ih =>
    cases hf
    rw [List.append_assoc]
    exact .again hbody (ih rfl)
  | _ => cases hf

/-! ## Trivial cases -/

theorem matches_concat : Matches (concat items) w ↔ Matches (sequence items) w := by
  match items with
  | [] => rw [concat, matches_emptyString, matches_sequence_nil]
  | [item] => simp [concat, matches_sequence_cons, matches_sequence_nil]
  | _ :: _ :: _ => rfl

theorem matches_choice : Matches (choice items) w ↔ Matches (alternative items) w := by
  match items with
  | [] => simp [choice, matches_alternative, not_matches_nothing]
  | [item] => simp [choice, matches_alternative]
  | _ :: _ :: _ => rfl

theorem matches_repeated :
    Matches (body.repeated optional repeating) w ↔ Matches (optRep body optional repeating) w := by
  rw [repeated]
  cases optional with
  | true => rfl
  | false =>
    cases repeating with
    | true => rfl
    | false =>
      constructor
      · exact .once
      · intro h
        cases h with
        | once hbody => exact hbody

theorem matches_literal {text : List σ} : Matches (literal text) w ↔ w = text := by
  rw [literal, matches_concat]
  induction text generalizing w with
  | nil => exact matches_sequence_nil
  | cons x text ih => simp [matches_sequence_cons, matches_oneOf, ih]

end Munch.Fragment
