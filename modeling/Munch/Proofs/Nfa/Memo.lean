-- SUMMARY: The search finds the least closed set, and what the memo holds changes no answer.
import Munch.Nfa.Memo
import Munch.Proofs.Nfa.Moves

/-! # Memoized closures

A search has seen only states that belong to the closure, and all that their
silent edges lead to, unless they wait on the stack. So if nothing waits, it has
seen the closure. A memo holds what searches find, whatever was asked for, and a
question that reads it is answered as if it was not there. -/

namespace Munch.Nfa

variable {σ α β γ : Type} [Symbol σ] {n : Nfa σ α} {s t : StateSet}

/-! ## Steps of a search -/

namespace Walk

variable {w w' w'' : Walk} {targets targets' : List Nat} {id : Nat}

/-- The first walk becomes the second one when edges to some targets are followed: they have been
seen, and those that had not been seen before wait. Each of these is put on the stack once. -/
structure Sees (w : Walk) (targets : List Nat) (w' : Walk) : Prop where
  mem_seen (j : Nat) : j ∈ w'.seen ↔ j ∈ w.seen ∨ j ∈ targets
  mem_stack (j : Nat) : j ∈ w'.stack ↔ j ∈ w.stack ∨ j ∈ targets ∧ ¬ j ∈ w.seen
  length_eq : w'.seen.ids.length + w.stack.length = w.seen.ids.length + w'.stack.length

theorem Sees.nil (w : Walk) : w.Sees [] w where
  mem_seen j := by simp
  mem_stack j := by simp
  length_eq := rfl

theorem Sees.append (h : w.Sees targets w') (h' : w'.Sees targets' w'') :
    w.Sees (targets ++ targets') w'' where
  mem_seen j := by rw [h'.mem_seen, h.mem_seen, List.mem_append, or_assoc]
  mem_stack j := by
    rw [h'.mem_stack, h.mem_stack, h.mem_seen, List.mem_append]
    by_cases hj : j ∈ targets <;> simp [hj]
  length_eq := by
    have := h.length_eq
    have := h'.length_eq
    omega

theorem exists_see {target : Nat} (htarget : target < n.size) (w : Walk) :
    ∃ w', w.see? n target = .ok w' ∧ w.Sees [target] w' := by
  rw [see?, if_pos htarget]
  by_cases hseen : target ∈ w.seen
  · refine ⟨w, if_pos hseen, fun j => ?_, fun j => ?_, rfl⟩
    · rw [List.mem_singleton]
      exact (or_iff_left_of_imp fun hj => hj ▸ hseen).symm
    · rw [List.mem_singleton]
      exact (or_iff_left fun ⟨hj, hnot⟩ => hnot (hj ▸ hseen)).symm
  · refine ⟨_, if_neg hseen, fun j => ?_, fun j => ?_, ?_⟩
    · rw [StateSet.mem_union, StateSet.mem_singleton, List.mem_singleton]
    · rw [List.mem_cons, List.mem_singleton, or_comm]
      refine or_congr_right (and_iff_left_of_imp ?_).symm
      rintro rfl
      exact hseen
    · rw [StateSet.length_union_singleton hseen, List.length_cons]
      omega

theorem exists_foldlM_see (htargets : ∀ j ∈ targets, j < n.size) (w : Walk) :
    ∃ w', targets.foldlM (see? n) w = .ok w' ∧ w.Sees targets w' := by
  induction targets generalizing w with
  | nil => exact ⟨w, rfl, .nil w⟩
  | cons target targets ih =>
    obtain ⟨htarget, htargets⟩ := List.forall_mem_cons.1 htargets
    obtain ⟨w₁, hw₁, hsees⟩ := exists_see htarget w
    obtain ⟨w₂, hw₂, hsees'⟩ := ih htargets w₁
    refine ⟨w₂, ?_, hsees.append hsees'⟩
    rw [List.foldlM_cons, hw₁, Checked.ok_bind, hw₂]

/-- What holds of every walk of a search for the closure of a set. -/
structure Invariant (n : Nfa σ α) (s : StateSet) (w : Walk) : Prop where
  seen_of_waits : ∀ i ∈ w.stack, i ∈ w.seen
  includes : ∀ i ∈ s, i ∈ w.seen
  reached : ∀ i ∈ w.seen, i ∈ n.closure s
  followed : ∀ i ∈ w.seen, i ∈ w.stack ∨ ∀ j ∈ n.silentTargets i, j ∈ w.seen

theorem Invariant.start (h : n.WellFormed) (s : StateSet) :
    Invariant n s ⟨s, s.ids.reverse⟩ where
  seen_of_waits _ hi := List.mem_reverse.1 hi
  includes _ hi := hi
  reached _ hi := h.mem_closure.2 ⟨_, hi, .stay _⟩
  followed _ hi := .inl (List.mem_reverse.2 hi)

theorem Invariant.follow (hinv : Invariant n s ⟨w.seen, id :: w.stack⟩) (h : n.WellFormed)
    (hsees : w.Sees (n.silentTargets id) w') : Invariant n s w' where
  seen_of_waits i hi := by
    rw [hsees.mem_seen]
    rcases (hsees.mem_stack i).1 hi with hi | ⟨hi, -⟩
    · exact .inl (hinv.seen_of_waits i (List.mem_cons_of_mem _ hi))
    · exact .inr hi
  includes i hi := (hsees.mem_seen i).2 (.inl (hinv.includes i hi))
  reached i hi := by
    have hid := hinv.reached id (hinv.seen_of_waits id List.mem_cons_self)
    rcases (hsees.mem_seen i).1 hi with hi | hi
    · exact hinv.reached i hi
    · exact h.closure_closed s id hid i (mem_silentTargets.1 hi)
  followed i hi := by
    by_cases hseen : i ∈ w.seen
    · rcases hinv.followed i hseen with hwaits | hdone
      · rcases List.mem_cons.1 hwaits with rfl | hwaits
        · exact .inr fun j hj => (hsees.mem_seen j).2 (.inr hj)
        · exact .inl ((hsees.mem_stack i).2 (.inl hwaits))
      · exact .inr fun j hj => (hsees.mem_seen j).2 (.inl (hdone j hj))
    · have htarget := ((hsees.mem_seen i).1 hi).resolve_left hseen
      exact .inl ((hsees.mem_stack i).2 (.inr ⟨htarget, hseen⟩))

/-- If nothing waits, the closure has been seen. -/
theorem Invariant.seen_eq (h : n.WellFormed) (hinv : Invariant n s w) (hstack : w.stack = []) :
    w.seen = n.closure s := by
  refine StateSet.ext fun i => ⟨hinv.reached i, fun hi => ?_⟩
  have hclosed : n.Closed w.seen := by
    intro i hi j hj
    have hnot : ¬ i ∈ w.stack := by
      rw [hstack]
      exact List.not_mem_nil
    exact (hinv.followed i hi).resolve_left hnot j (mem_silentTargets.2 hj)
  obtain ⟨k, hk, hp⟩ := h.mem_closure.1 hi
  exact hclosed.mem_of_path (hinv.includes k hk) hp

/-! ## Search -/

/-- The search ends with a set after some states were followed. -/
inductive Ends (n : Nfa σ α) : Walk → Nat → StateSet → Prop where
  | done (seen : StateSet) : Ends n ⟨seen, []⟩ 0 seen
  | follow {seen t : StateSet} {id steps : Nat} {rest : List Nat} {w : Walk} :
      follow? n ⟨seen, rest⟩ id = .ok w → Ends n w steps t →
      Ends n ⟨seen, id :: rest⟩ (steps + 1) t

theorem Ends.run?_eq {steps : Nat} (h : Ends n w steps t) : w.run? n = .ok t := by
  induction h with
  | done => rw [run?]
  | follow hfollow _ ih =>
    rw [run?]
    split
    case h_1 hf => rw [hfollow] at hf; cases hf
    case h_2 w₁ hw₁ =>
      rw [hfollow] at hw₁
      cases hw₁
      exact ih

/-- A search ends. It follows the states that wait, and one more for each state it still finds. -/
theorem Invariant.exists_ends (h : n.WellFormed) (hinv : Invariant n s w) :
    ∃ steps, Ends n w steps (n.closure s) ∧
      steps + w.seen.ids.length = (n.closure s).ids.length + w.stack.length := by
  -- On the states that are missing or wait: a cycle leads to none that was missing.
  induction hleft : w.left n using Nat.strongRecOn generalizing w with
  | ind left ih =>
    obtain ⟨seen, stack⟩ := w
    cases stack with
    | nil =>
      rw [← hinv.seen_eq h rfl]
      exact ⟨0, .done seen, Nat.zero_add _⟩
    | cons id rest =>
      have htargets : ∀ j ∈ n.silentTargets id, j < n.size :=
        fun j hj => h.target_lt (mem_silentTargets.1 hj)
      obtain ⟨w', hfollow, hsees⟩ := exists_foldlM_see htargets ⟨seen, rest⟩
      have hlt : w'.left n < left := hleft ▸ Nat.lt_succ_of_le (left_foldlM_see hfollow)
      obtain ⟨steps, hends, hsteps⟩ := ih _ hlt (hinv.follow h hsees) rfl
      refine ⟨steps + 1, .follow hfollow hends, ?_⟩
      have hlength := hsees.length_eq
      simp only [List.length_cons] at hlength ⊢
      omega

end Walk

/-- Each state of the closure is followed once. -/
theorem WellFormed.walk_ends (h : n.WellFormed) (s : StateSet) :
    Walk.Ends n ⟨s, s.ids.reverse⟩ (n.closure s).ids.length (n.closure s) := by
  obtain ⟨steps, hends, hsteps⟩ := (Walk.Invariant.start h s).exists_ends h
  rw [List.length_reverse] at hsteps
  exact Nat.add_right_cancel hsteps ▸ hends

/-- The first missing state of a closure is that of the set. -/
theorem WellFormed.closure?_eq_map (h : n.WellFormed) (s : StateSet) :
    n.closure? s = n.closure <$> n.present? s := by
  have hfind : (n.closure s).ids.find? (n.size ≤ ·) = s.ids.find? (n.size ≤ ·) := by
    refine StateSet.find?_ids_eq fun j hj => ?_
    rw [h.mem_closure]
    constructor
    · rintro ⟨i, hi, hp⟩
      rcases Path.lt_or_eq h hp with hlt | rfl
      · exact absurd (of_decide_eq_true hj) (Nat.not_le_of_lt hlt)
      · exact hi
    · intro hj
      exact ⟨j, hj, .stay j⟩
  rw [closure?, present?, present?, hfind]
  cases s.ids.find? (n.size ≤ ·) <;> rfl

theorem WellFormed.walk?_eq (h : n.WellFormed) (s : StateSet) : n.walk? s = n.closure? s := by
  rw [h.closure?_eq_map, walk?]
  cases hs : n.present? s with
  | error f => rfl
  | ok t =>
    obtain ⟨rfl, -⟩ := present?_eq_ok hs
    exact (h.walk_ends s).run?_eq

/-! ## Memo -/

/-- A memo in which every set stands with what a search for it finds. -/
def Coherent (n : Nfa σ α) (memo : Memo) : Prop :=
  ∀ s t, memo[s]? = some t → n.walk? s = .ok t

theorem coherent_empty (n : Nfa σ α) : n.Coherent ∅ := by
  intro s t h
  rw [Std.HashMap.getElem?_empty] at h
  cases h

/-- What a query gives with any coherent memo, and then the memo still is coherent. -/
def Answers (n : Nfa σ α) (query : Memoized σ β) (result : Except (Fault σ) β) : Prop :=
  ∀ memo, n.Coherent memo →
    (query.run.run memo).1 = result ∧ n.Coherent (query.run.run memo).2

namespace Answers

theorem lift (result : Except (Fault σ) β) : n.Answers (liftM result) result := by
  intro memo hmemo
  cases result with
  | error f => exact ⟨rfl, hmemo⟩
  | ok b => exact ⟨rfl, hmemo⟩

theorem pure (b : β) : n.Answers (pure b) (.ok b) :=
  fun _ hmemo => ⟨rfl, hmemo⟩

theorem bind {query : Memoized σ β} {result : Except (Fault σ) β} {f : β → Memoized σ γ}
    {g : β → Except (Fault σ) γ} (hquery : n.Answers query result)
    (hf : ∀ b, result = .ok b → n.Answers (f b) (g b)) : n.Answers (query >>= f) (result >>= g) := by
  intro memo hmemo
  obtain ⟨hresult, hmemo'⟩ := hquery memo hmemo
  rw [ExceptT.run_bind, StateT.run_bind]
  rcases hrun : query.run.run memo with ⟨answer, memo'⟩
  rw [hrun] at hresult hmemo'
  obtain rfl : answer = result := hresult
  cases answer with
  | error f => exact ⟨rfl, hmemo'⟩
  | ok b => exact hf b rfl memo' hmemo'

theorem foldlM {f : β → γ → Memoized σ β} {g : β → γ → β} {l : List γ}
    (hf : ∀ b, ∀ a ∈ l, n.Answers (f b a) (.ok (g b a))) (b : β) :
    n.Answers (l.foldlM f b) (.ok (l.foldl g b)) := by
  induction l generalizing b with
  | nil => exact .pure b
  | cons a l ih =>
    rw [List.foldlM_cons]
    refine (hf b a List.mem_cons_self).bind (g := fun b => .ok (l.foldl g b)) fun b' _ => ?_
    exact ih (fun b a' ha' => hf b a' (List.mem_cons_of_mem _ ha')) b'

end Answers

theorem Coherent.insertIfNew {memo : Memo} (h : n.Coherent memo) (hs : n.walk? s = .ok t) :
    n.Coherent (memo.insertIfNew s t) := by
  intro s' t' h'
  rw [Std.HashMap.getElem?_insertIfNew] at h'
  split at h'
  case isTrue hnew =>
    obtain rfl : s = s' := eq_of_beq hnew.1
    cases h'
    exact hs
  case isFalse => exact h s' t' h'

omit [Symbol σ] in
theorem run_get_bind (f : Memo → Memoized σ β) (memo : Memo) :
    (get >>= f).run.run memo = (f memo).run.run memo := rfl

/-- What the memo has for a set is what a search finds, and what is noted was found by one. -/
theorem answers_recallClosure? (n : Nfa σ α) (s : StateSet) :
    n.Answers (n.recallClosure? s) (n.walk? s) := by
  intro memo hmemo
  rw [recallClosure?, run_get_bind]
  cases hs : memo[s]? with
  | some t => exact ⟨(hmemo s t hs).symm, hmemo⟩
  | none =>
    cases ht : n.walk? s with
    | error f => exact ⟨rfl, hmemo⟩
    | ok t =>
      have hnote : memo.getThenInsertIfNew? s t = (none, memo.insertIfNew s t) :=
        Prod.ext (Std.HashMap.getThenInsertIfNew?_fst.trans hs) Std.HashMap.getThenInsertIfNew?_snd
      show Except.ok ((memo.getThenInsertIfNew? s t).1.getD t) = _ ∧
        n.Coherent (memo.getThenInsertIfNew? s t).2
      rw [hnote]
      exact ⟨rfl, hmemo.insertIfNew ht⟩

theorem WellFormed.walk?_targets (h : n.WellFormed) (s : StateSet) (piece : RangeSet σ) :
    n.walk? (.ofList (((n.outgoing s).filter fun e => !e.1.isDisjoint piece).map Prod.snd)) =
      .ok (n.destination (n.outgoing s) piece) := by
  rw [h.walk?_eq, h.closure?_eq, destination]
  intro j hj
  obtain ⟨e, he, rfl⟩ := List.mem_map.1 (StateSet.mem_ofList.1 hj)
  obtain ⟨i, -, he⟩ := mem_outgoing.1 (List.mem_filter.1 he).1
  exact h.target_lt he

theorem WellFormed.moves?_eq_bind (h : n.WellFormed) (s : StateSet) :
    n.moves? s = n.present? s >>= fun s => .ok (n.moves s) := by
  cases hs : n.present? s with
  | error f => rw [moves?, hs]; rfl
  | ok t =>
    obtain ⟨rfl, hlt⟩ := present?_eq_ok hs
    exact h.moves?_eq hlt

theorem WellFormed.answers_recallMoves? (h : n.WellFormed) (s : StateSet) :
    n.Answers (n.recallMoves? s) (n.moves? s) := by
  rw [h.moves?_eq_bind]
  refine (Answers.lift (n.present? s)).bind fun s _ => ?_
  rw [moves, RangeSet.gatherAll, List.foldl_map]
  refine .foldlM (fun moves piece _ => ?_) []
  have hclosure := n.answers_recallClosure?
    (.ofList (((n.outgoing s).filter fun e => !e.1.isDisjoint piece).map Prod.snd))
  rw [h.walk?_targets] at hclosure
  exact hclosure.bind (g := fun t => .ok (RangeSet.gather moves piece t)) fun t _ => .pure _

/-! ## Questions -/

/-- What can be asked of an automaton that keeps a memo. -/
inductive Question where
  | closure (s : StateSet)
  | moves (s : StateSet)

/-- The memo after a question, also if there was a fault. -/
def Question.note (n : Nfa σ α) (memo : Memo) : Question → Memo
  | closure s => ((n.recallClosure? s).run.run memo).2
  | moves s => ((n.recallMoves? s).run.run memo).2

/-- The memo after some questions to an automaton that starts with none. -/
def memoAfter (n : Nfa σ α) (history : List Question) : Memo := history.foldl (Question.note n) ∅

/-- What a question gives after others. -/
def reply (n : Nfa σ α) (history : List Question) (query : Memoized σ β) : Except (Fault σ) β :=
  (query.run.run (n.memoAfter history)).1

theorem WellFormed.coherent_note (h : n.WellFormed) {memo : Memo} (hmemo : n.Coherent memo)
    (q : Question) : n.Coherent (q.note n memo) := by
  cases q with
  | closure s => exact (answers_recallClosure? n s memo hmemo).2
  | moves s => exact (h.answers_recallMoves? s memo hmemo).2

theorem WellFormed.coherent_memoAfter (h : n.WellFormed) (history : List Question) :
    n.Coherent (n.memoAfter history) :=
  List.foldlRecOn history (Question.note n) (coherent_empty n) fun _ hmemo q _ =>
    h.coherent_note hmemo q

theorem WellFormed.reply_eq (h : n.WellFormed) {query : Memoized σ β} {result : Except (Fault σ) β}
    (hquery : n.Answers query result) (history : List Question) : n.reply history query = result :=
  (hquery _ (h.coherent_memoAfter history)).1

/-! ## Closures -/

/-- The least set that holds the states of another one and that no silent edge leads out of. -/
structure IsClosure (n : Nfa σ α) (s t : StateSet) : Prop where
  includes : ∀ i ∈ s, i ∈ t
  closed : n.Closed t
  least : ∀ u : StateSet, (∀ i ∈ s, i ∈ u) → n.Closed u → ∀ i ∈ t, i ∈ u

theorem WellFormed.closure_isClosure (h : n.WellFormed) (s : StateSet) :
    n.IsClosure s (n.closure s) where
  includes i hi := h.mem_closure.2 ⟨i, hi, .stay i⟩
  closed := h.closure_closed s
  least u hsu hu j hj := by
    obtain ⟨i, hi, hp⟩ := h.mem_closure.1 hj
    exact hu.mem_of_path (hsu i hi) hp

namespace IsClosure

variable {s' t' : StateSet}

theorem mono (h : n.IsClosure s t) (h' : n.IsClosure s' t') (hss' : ∀ i ∈ s, i ∈ s') :
    ∀ i ∈ t, i ∈ t' :=
  h.least t' (fun i hi => h'.includes i (hss' i hi)) h'.closed

theorem unique (h : n.IsClosure s t) (h' : n.IsClosure s t') : t = t' :=
  StateSet.ext fun i => ⟨h.mono h' (fun _ hi => hi) i, h'.mono h (fun _ hi => hi) i⟩

theorem of_closed (h : n.Closed t) : n.IsClosure t t where
  includes _ hi := hi
  closed := h
  least _ htu _ := htu

theorem union (h : n.IsClosure s t) (h' : n.IsClosure s' t') : n.IsClosure (s ∪ s') (t ∪ t') where
  includes i hi := StateSet.mem_union.2 ((StateSet.mem_union.1 hi).imp (h.includes i) (h'.includes i))
  closed i hi j hj :=
    StateSet.mem_union.2 ((StateSet.mem_union.1 hi).imp (h.closed i · j hj) (h'.closed i · j hj))
  least u hsu hu i hi := by
    rcases StateSet.mem_union.1 hi with hi | hi
    · exact h.least u (fun j hj => hsu j (StateSet.mem_union.2 (.inl hj))) hu i hi
    · exact h'.least u (fun j hj => hsu j (StateSet.mem_union.2 (.inr hj))) hu i hi

end IsClosure

theorem WellFormed.walk?_eq_ok_iff (h : n.WellFormed) :
    n.walk? s = .ok t ↔ (∀ i ∈ s, i < n.size) ∧ n.IsClosure s t := by
  constructor
  · intro hwalk
    obtain ⟨s', hs, -⟩ := Checked.bind_eq_ok hwalk
    obtain ⟨rfl, hlt⟩ := present?_eq_ok hs
    rw [h.walk?_eq, h.closure?_eq hlt] at hwalk
    cases hwalk
    exact ⟨hlt, h.closure_isClosure s⟩
  · rintro ⟨hlt, hclosure⟩
    rw [h.walk?_eq, h.closure?_eq hlt, (h.closure_isClosure s).unique hclosure]

/-- The laws of a closure, for a function that may fail. -/
structure IsClosureOperator {ε : Type} (close? : StateSet → Except ε StateSet) : Prop where
  extensive {s t : StateSet} : close? s = .ok t → ∀ i ∈ s, i ∈ t
  monotone {s s' t t' : StateSet} :
    (∀ i ∈ s, i ∈ s') → close? s = .ok t → close? s' = .ok t' → ∀ i ∈ t, i ∈ t'
  idempotent {s t : StateSet} : close? s = .ok t → close? t = .ok t
  union {s s' t t' : StateSet} :
    close? s = .ok t → close? s' = .ok t' → close? (s ∪ s') = .ok (t ∪ t')

theorem WellFormed.isClosureOperator_walk? (h : n.WellFormed) : IsClosureOperator n.walk? where
  extensive hs := (h.walk?_eq_ok_iff.1 hs).2.includes
  monotone hss' hs hs' := (h.walk?_eq_ok_iff.1 hs).2.mono (h.walk?_eq_ok_iff.1 hs').2 hss'
  idempotent {s t} hs := by
    obtain ⟨hlt, hclosure⟩ := h.walk?_eq_ok_iff.1 hs
    refine h.walk?_eq_ok_iff.2 ⟨?_, .of_closed hclosure.closed⟩
    rw [hclosure.unique (h.closure_isClosure s)]
    exact h.closure_lt hlt
  union hs hs' := by
    obtain ⟨hlt, hclosure⟩ := h.walk?_eq_ok_iff.1 hs
    obtain ⟨hlt', hclosure'⟩ := h.walk?_eq_ok_iff.1 hs'
    refine h.walk?_eq_ok_iff.2 ⟨fun i hi => ?_, hclosure.union hclosure'⟩
    exact (StateSet.mem_union.1 hi).elim (hlt i) (hlt' i)

/-- After some questions, nothing shows that there is a memo. Closures and moves are what they are
without one, with the same faults. The closure of states that exist is the least closed set, and the
search for it, which follows each of its states once, ends also if silent edges form a cycle. -/
structure MemoInvisible (n : Nfa σ α) (history : List Question) : Prop where
  closure_eq (s : StateSet) : n.reply history (n.recallClosure? s) = n.walk? s
  moves_eq (s : StateSet) : n.reply history (n.recallMoves? s) = n.moves? s
  least (s : StateSet) : (∀ i ∈ s, i < n.size) →
    ∃ t, n.reply history (n.recallClosure? s) = .ok t ∧ n.IsClosure s t ∧
      Walk.Ends n ⟨s, s.ids.reverse⟩ t.ids.length t
  operator : IsClosureOperator fun s => n.reply history (n.recallClosure? s)

theorem closures_exact (n : Nfa σ α) (h : n.WellFormed) (history : List Question) :
    n.MemoInvisible history := by
  have hclosure (s : StateSet) : n.reply history (n.recallClosure? s) = n.walk? s :=
    h.reply_eq (answers_recallClosure? n s) history
  refine ⟨hclosure, fun s => h.reply_eq (h.answers_recallMoves? s) history, fun s hs => ?_, ?_⟩
  · have hisClosure := h.closure_isClosure s
    refine ⟨n.closure s, ?_, hisClosure, h.walk_ends s⟩
    rw [hclosure]
    exact h.walk?_eq_ok_iff.2 ⟨hs, hisClosure⟩
  · rw [funext hclosure]
    exact h.isClosureOperator_walk?

/-- Three states that silent edges lead around. -/
def roundabout : Nfa Char Nat where
  start := 0
  states := #[⟨[⟨none, 1⟩], none⟩, ⟨[⟨none, 2⟩], none⟩,
    ⟨[⟨none, 0⟩, ⟨some (.range 'a' 'f'), 3⟩], none⟩, ⟨[], some 7⟩]

theorem roundabout_closures_exact : roundabout.WellFormed ∧
    roundabout.MemoInvisible [.closure {1}, .moves {9}, .moves {2, 3}, .closure {0, 1, 2}] ∧
    roundabout.reply [.closure {1}] (roundabout.recallClosure? {1}) = .ok {0, 1, 2} := by
  have h : roundabout.WellFormed := by decide
  refine ⟨h, closures_exact roundabout h _, ?_⟩
  rw [(closures_exact roundabout h _).closure_eq, h.walk?_eq]
  rfl

end Munch.Nfa
