import Orchestra.Proofs.Caller.Episodes

/-!
# The phases of a part

The first step of a part leaves a part of it, which is an episode of its own. Of two parts, one after the
other, each has its episode too, and whatever is left of the whole is left of the first of them, together
with the second, or of the second alone, once the first is over.
-/

namespace Orchestra.Trace.Episode

variable {tr : Trace} {e : tr.Episode} {i j : Nat} {s t : Task} {f : Outcome → Task} {o : Outcome}

/-- The episode that is left after the first step of the part. -/
inductive Next (e : tr.Episode) : tr.Episode → Prop
  | answer {k : Nat} {r : Request} {next : r.Answer → Task} {a : r.Answer}
    (asks : e.part = .ask r next) (answers : tr.history.Answers e.task e.first r k a)
    (running : (tr.machine (k + 1)).control = .running e.task ((next a).andThen e.rest)) :
    Next e ⟨e.task, k + 1, next a, e.rest, running⟩
  | spawn {name : String} {parent : TokenId} {body : TokenId → Task} {next : Child → Task} {c : Child}
    (spawns : e.part = .spawn name parent body next) (starts : tr.Starts e.first e.task c)
    (running : (tr.machine (e.first + 1)).control = .running e.task ((next c).andThen e.rest)) :
    Next e ⟨e.task, e.first + 1, next c, e.rest, running⟩

/-- What is left of a part is the part itself, or is left after the first step. -/
theorem Left.head (left : e.Left i s) :
    (i = e.first ∧ s = e.part) ∨ ∃ e', e.Next e' ∧ e'.Left i s := by
  induction left with
  | begins => exact .inl ⟨rfl, rfl⟩
  | answer _ answers waits running ih =>
    rcases ih with ⟨rfl, asks⟩ | ⟨e', next, left⟩
    · exact .inr ⟨_, .answer asks.symm answers running, .begins⟩
    · exact .inr ⟨e', next, by cases next <;> exact left.answer answers waits running⟩
  | spawn _ starts running ih =>
    rcases ih with ⟨rfl, spawns⟩ | ⟨e', next, left⟩
    · exact .inr ⟨_, .spawn spawns.symm starts running, .begins⟩
    · exact .inr ⟨e', next, by cases next <;> exact left.spawn starts running⟩

/-- Of a part that takes no step nothing else is left. -/
theorem Left.eq_part (left : e.Left i s) (asks : ∀ r next, e.part ≠ .ask r next)
    (spawns : ∀ name parent body next, e.part ≠ .spawn name parent body next) :
    i = e.first ∧ s = e.part := by
  refine left.head.resolve_right ?_
  rintro ⟨e', next, -⟩
  cases next with
  | answer hasks => exact asks _ _ hasks
  | spawn hspawns => exact spawns _ _ _ _ hspawns

/-- What is left later is left of what is left before. -/
theorem Left.later (left : e.Left i s) {s' : Task} (left' : e.Left j s') (hij : i ≤ j) :
    Left ⟨e.task, i, s, e.rest, left.running⟩ j s' := by
  have hbegins {s' : Task} (left' : e.Left i s') :
      Left ⟨e.task, i, s, e.rest, left.running⟩ i s' :=
    left.unique left' ▸ .begins
  induction left' with
  | begins =>
    obtain rfl : i = e.first := Nat.le_antisymm hij left.le
    exact hbegins .begins
  | @answer m k r next a left' answers waits running ih =>
    rcases Nat.lt_trichotomy i (k + 1) with hlt | rfl | hgt
    · by_cases him : i ≤ m
      · exact (ih him).answer answers waits running
      · exact (left.not_waits (waits i (Nat.lt_of_not_le him) (Nat.le_of_lt_succ hlt)) rfl).elim
    · exact hbegins (left'.answer answers waits running)
    · exact absurd hij (Nat.not_le_of_lt hgt)
  | @spawn m name parent body next c left' starts running ih =>
    rcases Nat.eq_or_lt_of_le hij with rfl | hlt
    · exact hbegins (left'.spawn starts running)
    · exact (ih (Nat.le_of_lt_succ hlt)).spawn starts running

/-- A part that panics is never over. -/
theorem Left.not_done_of_panic {p : Payload} (left : e.Left i (.panic p)) : ¬ e.Left j (.done o) := by
  intro ends
  obtain ⟨-, heq⟩ := (left.later ends (left.le_of_done ends)).eq_part nofun nofun
  cases heq

/-! ### Two parts, one after the other -/

/-- The first of two parts. -/
def former (e : tr.Episode) (parts : e.part = t.andThen f) : tr.Episode where
  task := e.task
  first := e.first
  part := t
  rest o := (f o).andThen e.rest
  begins := by
    rw [← Task.andThen_assoc, ← parts]
    exact e.begins

/-- The second of them, once the first is over. -/
def latter {parts : e.part = t.andThen f} (ends : (e.former parts).Left j (.done o)) : tr.Episode :=
  ⟨e.task, j, f o, e.rest, ends.running⟩

/-- What is left of the first is left of both, together with the second. -/
theorem Left.of_former {parts : e.part = t.andThen f} (left : (e.former parts).Left i s) :
    e.Left i (s.andThen f) := by
  induction left with
  | begins => exact parts ▸ .begins
  | answer _ answers waits running ih =>
    refine ih.answer answers (fun i hmi hik => ?_) ?_
    · simp only [Task.andThen_assoc]
      exact waits i hmi hik
    · rw [Task.andThen_assoc]
      exact running
  | spawn _ starts running ih =>
    refine ih.spawn starts ?_
    rw [Task.andThen_assoc]
    exact running

/-- Whatever is left of both is left of the first, which is not over yet, or of the second. -/
theorem Left.former_or_latter (parts : e.part = t.andThen f) (left : e.Left i s) :
    (∃ s', (e.former parts).Left i s' ∧ s = s'.andThen f ∧ ∀ o, s' ≠ .done o) ∨
      ∃ j o, ∃ ends : (e.former parts).Left j (.done o), (latter ends).Left i s := by
  have hbegins {i : Nat} {s : Task} (left : (e.former parts).Left i s) :
      (∃ s', (e.former parts).Left i s' ∧ s.andThen f = s'.andThen f ∧ ∀ o, s' ≠ .done o) ∨
        ∃ j o, ∃ ends : (e.former parts).Left j (.done o), (latter ends).Left i (s.andThen f) := by
    by_cases h : ∃ o, s = .done o
    · obtain ⟨o, rfl⟩ := h
      exact .inr ⟨i, o, left, .begins⟩
    · exact .inl ⟨s, left, rfl, fun o heq => h ⟨o, heq⟩⟩
  induction left with
  | begins => exact parts ▸ hbegins .begins
  | @answer m k r next a _ answers waits running ih =>
    rcases ih with ⟨s', left, heq, hs'⟩ | ⟨j, o, ends, left⟩
    · cases s' with
      | ask r' next' =>
        cases heq
        simp only [Task.andThen_assoc] at waits running
        exact hbegins (left.answer answers waits running)
      | done o => exact absurd rfl (hs' o)
      | panic | endless | spawn => cases heq
    · exact .inr ⟨j, o, ends, left.answer answers waits running⟩
  | spawn _ starts running ih =>
    rcases ih with ⟨s', left, heq, hs'⟩ | ⟨j, o, ends, left⟩
    · cases s' with
      | spawn name parent body next =>
        cases heq
        rw [Task.andThen_assoc] at running
        exact hbegins (left.spawn starts running)
      | done o => exact absurd rfl (hs' o)
      | panic | endless | ask => cases heq
    · exact .inr ⟨j, o, ends, left.spawn starts running⟩

end Orchestra.Trace.Episode
