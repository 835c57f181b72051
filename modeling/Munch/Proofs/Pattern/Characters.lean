-- SUMMARY: The characters in a pattern tree, which decide whether the tree has a fragment.
import Munch.Proofs.Pattern.Language

/-! # Characters of patterns

Only the characters that are written in a tree can fail to evaluate. They are
evaluated from left to right, so a tree has a fragment if all of them evaluate,
and fails with the error of the first one that does not. -/

namespace Munch

/-! ## Characters -/

namespace ClassChar

/-- The character with those inside of its shifts, which come first. -/
def characters : ClassChar → List ClassChar
  | offset distance item => item.characters ++ [offset distance item]
  | c => [c]

/-- Whether the character evaluates, with the error if it does not. -/
def check (c : ClassChar) : Except PatternError Unit := (fun _ => ()) <$> c.eval

theorem check_eq_ok {c : ClassChar} : c.check = .ok () ↔ ∃ x, c.eval = .ok x := by
  rw [check]
  cases c.eval with
  | error e => exact iff_of_false (by nofun) (by nofun)
  | ok x => exact iff_of_true rfl ⟨x, rfl⟩

theorem check_eq_error {c : ClassChar} {e : PatternError} :
    c.check = .error e ↔ c.eval = .error e := by
  refine ⟨Checked.map_eq_error, fun h => ?_⟩
  rw [check, h]
  rfl

/-- A shift fails as its character does. -/
theorem forM_characters (c : ClassChar) : forM c.characters check = c.check := by
  induction c with
  | offset distance item ih =>
    rw [characters, List.forM_append, ih, Checked.forM_singleton, check, check, eval]
    cases item.eval with
    | error e => rfl
    | ok x => rfl
  | _ => exact Checked.forM_singleton _

end ClassChar

open ClassChar (check)

/-! ## Classes -/

namespace CharClass

mutual

/-- The characters of a class from left to right. -/
def characters : CharClass → List ClassChar
  | .between start stop => start.characters ++ stop.characters
  | .greaterEqual start => start.characters
  | .lessEqual stop => stop.characters
  | .only c => c.characters
  | .complement set => set.characters
  | .union sets => charactersOfEach sets
  | .intersection sets => charactersOfEach sets

def charactersOfEach : List CharClass → List ClassChar
  | [] => []
  | set :: sets => set.characters ++ charactersOfEach sets

end

mutual

theorem forM_characters :
    (set : CharClass) → forM set.characters check = (fun _ => ()) <$> set.eval
  | .between start stop => by
    rw [characters, List.forM_append, start.forM_characters, stop.forM_characters, eval]
    simp only [check, bind_map_left, map_bind, bind_pure_comp, Functor.map_map]
  | .greaterEqual start => by
    rw [characters, start.forM_characters, eval, check, Functor.map_map]
  | .lessEqual stop => by rw [characters, stop.forM_characters, eval, check, Functor.map_map]
  | .only c => by rw [characters, c.forM_characters, eval, check, Functor.map_map]
  | .complement set => by rw [characters, forM_characters set, eval, Functor.map_map]
  | .union sets => by rw [characters, forM_charactersOfEach sets, eval, Functor.map_map]
  | .intersection sets => by rw [characters, forM_charactersOfEach sets, eval, Functor.map_map]

theorem forM_charactersOfEach :
    (sets : List CharClass) → forM (charactersOfEach sets) check = (fun _ => ()) <$> evalAll sets
  | [] => rfl
  | set :: sets => by
    rw [charactersOfEach, List.forM_append, forM_characters set, forM_charactersOfEach sets,
      evalAll]
    simp only [bind_map_left, map_bind, bind_pure_comp, Functor.map_map]

end

end CharClass

/-! ## Trees -/

namespace Pattern

mutual

/-- The characters of a tree from left to right. -/
def characters : Pattern → List ClassChar
  | .emptyString => []
  | .single c => [.single c]
  | .escape c => [.escape c]
  | .hex digits => [.hex digits]
  | .oneOf set => set.characters
  | .sequence items => charactersOfEach items
  | .alternative items => charactersOfEach items
  | .optRep body _ _ => body.characters

def charactersOfEach : List Pattern → List ClassChar
  | [] => []
  | item :: items => item.characters ++ charactersOfEach items

end

mutual

/-- The check of the characters ends as the evaluation of the tree does. -/
theorem forM_characters :
    (p : Pattern) → forM p.characters check = (fun _ => ()) <$> p.toFragment
  | .emptyString => rfl
  | .single c => rfl
  | .escape c => rfl
  | .hex digits => by
    rw [characters, Checked.forM_singleton, toFragment, Functor.map_map]
    rfl
  | .oneOf set => by rw [characters, set.forM_characters, toFragment, Functor.map_map]
  | .sequence items => by
    rw [characters, forM_charactersOfEach items, toFragment, Functor.map_map]
  | .alternative items => by
    rw [characters, forM_charactersOfEach items, toFragment, Functor.map_map]
  | .optRep body optional repeating => by
    rw [characters, forM_characters body, toFragment, Functor.map_map]

theorem forM_charactersOfEach : (items : List Pattern) →
    forM (charactersOfEach items) check = (fun _ => ()) <$> toFragments items
  | [] => rfl
  | item :: items => by
    rw [charactersOfEach, List.forM_append, forM_characters item, forM_charactersOfEach items,
      toFragments]
    simp only [bind_map_left, map_bind, bind_pure_comp, Functor.map_map]

end

theorem exists_toFragment {p : Pattern} :
    (∃ f, p.toFragment = .ok f) ↔ ∀ c ∈ p.characters, ∃ x, c.eval = .ok x := by
  simp only [← ClassChar.check_eq_ok]
  rw [← Checked.forM_eq_ok, forM_characters]
  cases p.toFragment with
  | error e => exact iff_of_false (by nofun) (by nofun)
  | ok f => exact iff_of_true ⟨f, rfl⟩ rfl

theorem toFragment_eq_error {p : Pattern} {e : PatternError} :
    p.toFragment = .error e ↔ ∃ before c after, p.characters = before ++ c :: after ∧
      (∀ b ∈ before, ∃ x, b.eval = .ok x) ∧ c.eval = .error e := by
  simp only [← ClassChar.check_eq_ok, ← ClassChar.check_eq_error]
  rw [← Checked.forM_eq_error, forM_characters]
  cases p.toFragment with
  | error e' =>
    constructor
    · rintro ⟨⟩
      rfl
    · rintro ⟨⟩
      rfl
  | ok f => exact iff_of_false (by nofun) (by nofun)

/-- A tree has a fragment if every character in it evaluates, and otherwise the error of the leftmost
that does not. The fragment has the words of the tree. -/
theorem toFragment_meaning (p : Pattern) :
    ((∃ f, p.toFragment = .ok f) ↔ ∀ c ∈ p.characters, ∃ x, c.Denotes x) ∧
      (∀ e, p.toFragment = .error e ↔ ∃ before c after, p.characters = before ++ c :: after ∧
        (∀ b ∈ before, ∃ x, b.Denotes x) ∧ c.eval = .error e) ∧
      (∀ (c : ClassChar) x, c.eval = .ok x ↔ c.Denotes x) ∧
      ∀ f, p.toFragment = .ok f → ∀ w, f.Matches w ↔ w ∈ p.language := by
  refine ⟨?_, fun e => ?_, fun c x => ClassChar.eval_eq_ok, fun f hf w => matches_toFragment p hf⟩
  · simp only [← ClassChar.eval_eq_ok]
    exact exists_toFragment
  · simp only [← ClassChar.eval_eq_ok]
    exact toFragment_eq_error

/-- The characters from `f` down to `a` without `c`, and then any of no patterns. -/
def swappedEndpoints : Pattern :=
  .sequence [
    .oneOf (.intersection [
      .between (.single 'f') (.offset 1 (.hex ['6', '0'])),
      .complement (.union [.only (.single 'c')])]),
    .optRep (.alternative []) true false]

/-- Two characters that do not evaluate; the first one has a letter among its digits. -/
def wrongDigit : Pattern :=
  .alternative [
    .escape 'n',
    .oneOf (.union [
      .only (.single 'a'),
      .greaterEqual (.offset (-1) (.hex ['4', 'g'])),
      .only (.offset (-98) (.single 'a'))])]

theorem swappedEndpoints_meaning :
    (∃ f, swappedEndpoints.toFragment = .ok f ∧
      (∀ w, f.Matches w ↔ w ∈ swappedEndpoints.language)) ∧
    wrongDigit.toFragment = .error (.hexDigit 'g') := by
  constructor
  · have hcharacters : swappedEndpoints.characters = [.single 'f', .hex ['6', '0'],
        .offset 1 (.hex ['6', '0']), .single 'c'] := rfl
    have hdenotes : ∀ c ∈ swappedEndpoints.characters, ∃ x, c.Denotes x := by
      simp only [hcharacters, ← ClassChar.eval_eq_ok, List.forall_mem_cons]
      exact ⟨⟨_, rfl⟩, ⟨_, rfl⟩, ⟨_, rfl⟩, ⟨_, rfl⟩, by simp⟩
    obtain ⟨f, hf⟩ := (toFragment_meaning swappedEndpoints).1.2 hdenotes
    exact ⟨f, hf, (toFragment_meaning swappedEndpoints).2.2.2 f hf⟩
  · refine ((toFragment_meaning wrongDigit).2.1 _).2 ⟨[.escape 'n', .single 'a'],
      .hex ['4', 'g'], _, rfl, ?_, rfl⟩
    simp only [List.forall_mem_cons]
    exact ⟨⟨'\n', .escape rfl⟩, ⟨_, .single 'a'⟩, by simp⟩

end Pattern

end Munch
