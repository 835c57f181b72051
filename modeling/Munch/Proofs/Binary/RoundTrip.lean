-- SUMMARY: A lexer that is written is read as itself, unless one of its automata is not well formed.
import Munch.Binary.Lexer
import Munch.Proofs.Binary.Forms
import Munch.Proofs.Compile.Shape

/-! # Lexers that are written and read

Nothing is lost in the binary form of a lexer. Lexers made from rules pass the
check at the end of reading, since their automata are well formed. -/

namespace Munch

open Binary

/-! ## Sets -/

namespace RangeSet

variable {σ : Type} [Symbol σ]

/-- A set has no more bounds than there are symbols. -/
theorem length_bounds_le (a : RangeSet σ) : a.bounds.length ≤ Symbol.card σ := by
  have hnodup : (a.bounds.map Symbol.rank).Nodup :=
    List.pairwise_map.2 (a.ascending.imp fun h => Nat.ne_of_lt h)
  have hlt : ∀ n ∈ a.bounds.map Symbol.rank, n < Symbol.card σ :=
    List.forall_mem_map.2 fun x _ => Symbol.rank_lt x
  have hle := length_le_of_forall_lt hnodup hlt
  rwa [List.length_map] at hle

theorem ofBounds?_bounds (a : RangeSet σ) : ofBounds? a.bounds = some a :=
  dif_pos (ascends_iff.2 a.ascending)

end RangeSet

/-- There are never too many bounds in a set of characters. -/
instance : Sized (RangeSet Char) := ⟨fun _ => true⟩

instance : Recovers (RangeSet Char) where
  read_write {a} _ rest := by
    have hlength : a.bounds.length < 2 ^ 64 :=
      Nat.lt_of_le_of_lt a.length_bounds_le (by decide)
    have hfits : fits a.bounds := fits_list.2 ⟨hlength, fun _ _ => rfl⟩
    show read (write a.bounds ++ rest) >>= _ = _
    rw [read_bind hfits]
    dsimp only
    rw [RangeSet.ofBounds?_bounds]
    rfl

/-! ## Automata -/

section

variable {α : Type} [Sized α]

instance : Sized (Dfa.State Char α) := ⟨fun s => fits s.transitions && fits s.code⟩

instance : Sized (Dfa Char α) := ⟨fun d => fits d.start && fits d.dead && fits d.states.toList⟩

variable [Coded α] [Recovers α]

instance : Recovers (Dfa.State Char α) where
  read_write {s} h rest := by
    have hfits : fits (s.transitions, s.code) := h
    exact read_bind hfits rest _

instance : Recovers (Dfa Char α) where
  read_write {d} h rest := by
    have hfits : fits (d.start, d.dead, d.states.toList) := (Bool.and_assoc ..).symm.trans h
    have hwrite : write d = write (d.start, d.dead, d.states.toList) := List.append_assoc ..
    rw [hwrite]
    exact read_bind hfits rest _

end

/-! ## Compiled automata -/

/-- Only the codes of rules are written. -/
instance {α : Type} [Sized α] : Sized (Rule α) := ⟨fun rule => fits rule.code⟩

section

variable {α : Type} [Ord α] [Std.TransOrd α] [DecidableEq α] {config : Config}
  {rules : List (Rule α)} {d : Dfa Char α}

theorem exists_rule_of_compile (h : compile config rules = .ok d) {i : Nat} {c : α}
    (hc : d.code i = some c) : ∃ rule ∈ rules, rule.code = c := by
  obtain ⟨hconnected, -, hwinner⟩ := compiled h
  obtain ⟨s, hs, -⟩ := Option.bind_eq_some_iff.1 hc
  obtain ⟨word, hword⟩ := hconnected.reached (Array.getElem?_eq_some_iff.1 hs).1
  have hwins := hwinner word
  rw [Dfa.codeAfter, hword, Option.bind_some, hc] at hwins
  obtain ⟨rule, hrule, -, hcode⟩ := Wins.exists_rule hwins
  exact ⟨rule, hrule, hcode⟩

/-- A compiled automaton fits if its states can be numbered: it has no more transitions from a state
than states, and no codes but those of the rules. -/
theorem fits_of_compile [Sized α] (h : compile config rules = .ok d) (hsize : d.size < 2 ^ 64)
    (hrules : ∀ rule ∈ rules, fits rule) : fits d := by
  have hwell := (compiled h).1.wellFormed
  have hstate : ∀ s ∈ d.states.toList, fits s := by
    intro s hs
    obtain ⟨i, hi⟩ := Array.mem_iff_getElem?.1 (Array.mem_toList_iff.1 hs)
    have hlength : s.transitions.length ≤ d.size := by
      rw [← Dfa.transitions_of_state hi]
      exact (compile_tidy h).length_transitions_le hwell i
    refine Bool.and_eq_true_iff.2 ⟨fits_list.2 ⟨Nat.lt_of_le_of_lt hlength hsize, ?_⟩, ?_⟩
    · intro t ht
      exact fits_pair.2 ⟨rfl, fits_nat.2 (((hwell.2.2 s hs).1 t ht).trans hsize)⟩
    · refine fits_option.2 fun c hc => ?_
      obtain ⟨rule, hrule, rfl⟩ := exists_rule_of_compile h ((Dfa.code_of_state hi).trans hc)
      exact hrules rule hrule
  have hdead : fits d.dead :=
    fits_option.2 fun i hi => fits_nat.2 ((hwell.2.1 i hi).trans hsize)
  have hstart : fits d.start := fits_nat.2 (hwell.1.trans hsize)
  exact Bool.and_eq_true_iff.2
    ⟨Bool.and_eq_true_iff.2 ⟨hstart, hdead⟩, fits_list.2 ⟨hsize, hstate⟩⟩

end

/-! ## Lexers -/

namespace Lexer

theorem isPrefixOf_header_append (bytes : List UInt8) :
    header.isPrefixOf (header ++ bytes) = true :=
  List.isPrefixOf_iff_prefix.2 (List.prefix_append ..)

section

variable {α κ : Type} [Sized α] [Ord κ] [Sized κ]

instance : Sized (Lexer α κ) := ⟨fun l => fits l.modes.entries⟩

variable [Coded α] [Recovers α] [Std.TransOrd κ] [Coded κ] [Recovers κ]

theorem decode_encode {l : Lexer α κ} (h : fits l) :
    decode (encode l) = if l.WellFormed then .ok l else .error .format := by
  have hread : read (write l.modes.entries) = .ok (l.modes.entries, []) := by
    have hentries := read_write (x := l.modes.entries) h []
    rwa [List.append_nil] at hentries
  rw [decode, encode, if_pos (isPrefixOf_header_append _), List.drop_left, hread]
  dsimp only
  rw [ByName.ofList_entries]

end

/-! ## Compiled lexers -/

section

variable {α κ : Type} [Ord α] [DecidableEq α] [Ord κ] [Std.TransOrd κ] {config : Config}
  {rules : ByName (List (Rule α)) κ} {l : Lexer α κ}

/-- The modes of a compiled lexer are those of the rules, each with the automaton of its rules. -/
theorem modes_of_compile (h : compile config rules = .ok l) :
    List.Forall₂ (fun e m => e.1 = m.1 ∧ Munch.compile config m.2 = .ok e.2)
      l.modes.entries rules.entries := by
  obtain ⟨dfas, hdfas, h⟩ := Checked.bind_eq_ok h
  cases h
  have hmodes : List.Forall₂ (fun e m => e.1 = m.1 ∧ Munch.compile config m.2 = .ok e.2)
      dfas rules.entries := by
    refine .flip ((Checked.forall₂_of_mapM hdfas).imp fun m e he => ?_)
    obtain ⟨d, hd, he⟩ := Checked.bind_eq_ok he
    cases he
    exact ⟨rfl, hd⟩
  have hnames : dfas.map Prod.fst = rules.entries.map Prod.fst := by
    rw [← List.forall₂_eq_eq_eq, List.forall₂_map_left_iff, List.forall₂_map_right_iff]
    exact hmodes.imp fun _ _ hm => hm.1
  have hascending : dfas.Pairwise fun a b => compare a.1 b.1 = .lt := by
    have hpairwise : (rules.entries.map Prod.fst).Pairwise fun a b => compare a b = .lt :=
      List.pairwise_map.2 rules.ascending
    rw [← hnames] at hpairwise
    exact List.pairwise_map.1 hpairwise
  rwa [ByName.entries_ofList hascending]

theorem exists_mode_of_compile (h : compile config rules = .ok l) {e : κ × Dfa Char α}
    (he : e ∈ l.modes.entries) :
    ∃ m ∈ rules.entries, e.1 = m.1 ∧ Munch.compile config m.2 = .ok e.2 := by
  obtain ⟨i, hi, rfl⟩ := List.getElem_of_mem he
  have hmodes := modes_of_compile h
  exact ⟨_, List.getElem_mem (hmodes.length_eq ▸ hi), hmodes.get hi _⟩

variable [Std.TransOrd α]

theorem wellFormed_of_compile (h : compile config rules = .ok l) : l.WellFormed := by
  intro e he
  obtain ⟨m, -, -, hd⟩ := exists_mode_of_compile h he
  exact (compiled hd).1.wellFormed

theorem fits_of_compile [Sized α] [Sized κ] (h : compile config rules = .ok l)
    (hrules : fits rules.entries) (hsize : ∀ m ∈ l.modes.entries, m.2.size < 2 ^ 64) : fits l := by
  obtain ⟨hlength, hmodes⟩ := fits_list.1 hrules
  refine fits_list.2 ⟨(modes_of_compile h).length_eq ▸ hlength, fun e he => ?_⟩
  obtain ⟨m, hm, hname, hd⟩ := exists_mode_of_compile h he
  obtain ⟨hfits, hrules⟩ := fits_pair.1 (hmodes m hm)
  exact fits_pair.2 ⟨hname ▸ hfits,
    Munch.fits_of_compile hd (hsize e he) (fits_list.1 hrules).2⟩

end

/-! ## Persistence -/

/-- A lexer with codes of the type `α` and modes named by strings is read as itself if all its
automata are well formed, as they are if it was made from rules. Otherwise it is refused. -/
structure Persistent (α : Type) [Coded α] [Sized α] [Ord α] [DecidableEq α] : Prop where
  recovered : ∀ l : Lexer α, fits l → (∀ m ∈ l.modes.entries, m.2.WellFormed) →
    decode (encode l) = .ok l
  refused : ∀ l : Lexer α, fits l → (∃ m ∈ l.modes.entries, ¬ m.2.WellFormed) →
    (decode (encode l) : Except DecodeError (Lexer α)) = .error .format
  compiled : ∀ config rules (l : Lexer α), compile config rules = .ok l → fits rules.entries →
    (∀ m ∈ l.modes.entries, m.2.size < 2 ^ 64) → decode (encode l) = .ok l

theorem persistent {α : Type} [Coded α] [Sized α] [Recovers α] [Ord α] [Std.TransOrd α]
    [DecidableEq α] : Persistent α where
  recovered l hfits hwell := (decode_encode hfits).trans (if_pos hwell)
  refused l hfits hill := by
    obtain ⟨m, hm, hill⟩ := hill
    exact (decode_encode hfits).trans (if_neg fun hwell => hill (hwell m hm))
  compiled config rules l hl hrules hsize :=
    (decode_encode (fits_of_compile hl hrules hsize)).trans (if_pos (wellFormed_of_compile hl))

/-- Codes may be signed or unsigned numbers or strings. -/
theorem persistent_int_nat_string : Persistent Int64 ∧ Persistent Nat ∧ Persistent String :=
  ⟨persistent, persistent, persistent⟩

/-- A lexer with one mode, in which the letter `a` leads from state 0 to the target, and a token ends
in state 1. -/
def oneLetter (target : Nat) : Lexer Int64 :=
  ⟨⟨[("main", ⟨0, none, #[⟨[(.only 'a', target)], none⟩, ⟨[], some (-1)⟩]⟩)],
    List.pairwise_singleton ..⟩⟩

theorem oneLetter_persistent :
    decode (encode (oneLetter 1)) = .ok (oneLetter 1) ∧
      (decode (encode (oneLetter 99)) : Except DecodeError (Lexer Int64)) = .error .format :=
  ⟨persistent_int_nat_string.1.recovered (oneLetter 1) rfl (by decide +kernel),
    persistent_int_nat_string.1.refused (oneLetter 99) rfl (by decide +kernel)⟩

end Lexer

end Munch
