import BreezeJs.Regexp.SimpleQuant

set_option autoImplicit false

namespace BreezeJs.Regexp

open SizedCode Choices

def saveResetCode (lastCaptureCount captureCount : Nat) : Code :=
  if lastCaptureCount ≠ captureCount then [.saveReset lastCaptureCount (captureCount - 1)] else []

def leastRounds (q : Quantifier) (atom : Code) : Code :=
  if q.quantMin = 1 then atom else countedLoop q.quantMin atom

def moreRounds (q : Quantifier) (round : Code) : Code :=
  if q.quantMax = int32Max then
    emitGoto .goto 0 (splitOp q.greedy (codeSize round + 5) :: round)
  else if q.quantMin < q.quantMax then
    countedLoop (q.quantMax - q.quantMin) (splitOp q.greedy (codeSize round + 5) :: round)
  else []

theorem emitGoto_after (op : Int → Instr) (a b : Code) :
    emitGoto op (codeSize a) (a ++ b) = a ++ emitGoto op 0 b := by
  simpa using emitGoto_append op a b 0

theorem emitGoto_pushed (first : Code) (n : Nat) (body : Code) :
    emitGoto .loop (codeSize (first ++ [.pushI32 n])) (first ++ [.pushI32 n] ++ body) ++ [.drop] =
      first ++ countedLoop n body := by
  rw [emitGoto_after]
  simp [countedLoop]

theorem emitLoops_eq (q : Quantifier) (atom : Code) (lastCaptureCount captureCount : Nat) :
    emitLoops q atom lastCaptureCount captureCount =
      let check := needCheckAdvance true atom
      let round := withCheck check atom
      if q.quantMin = 0 then
        saveResetCode lastCaptureCount captureCount ++
          (if q.quantMax = 1 then splitOp q.greedy (codeSize round) :: round else moreRounds q round)
      else if q.quantMin = 1 ∧ q.quantMax = int32Max ∧ check = false then
        emitGoto (splitOp (!q.greedy)) 0 atom
      else leastRounds q atom ++ moreRounds q round := by
  have size : (codeSize (withCheck (needCheckAdvance true atom) atom) : Int) =
      codeSize atom + if needCheckAdvance true atom then 2 else 0 := by
    rw [length_withCheck]
    split <;> rfl
  have jump : (codeSize atom : Int) + 5 + (if needCheckAdvance true atom then 2 else 0) =
      codeSize (withCheck (needCheckAdvance true atom) atom) + 5 := by
    rw [size]
    omega
  simp only [emitLoops, jump, ← size]
  by_cases zero : q.quantMin = 0
  · simp only [if_pos zero, saveResetCode, moreRounds]
    congr 1
    by_cases none : q.quantMax = 0
    · simp [none, zero, int32Max]
    · by_cases one : q.quantMax = 1
      · simp [one]
      · by_cases infinite : q.quantMax = int32Max
        · simp [infinite, int32Max]
        · have more : 0 < q.quantMax := by omega
          simp only [none, one, infinite, if_false, zero, more, if_true, Nat.sub_zero]
          exact emitGoto_counted _ _
  · simp only [if_neg zero]
    split
    · rfl
    · simp only [leastRounds, moreRounds, emitGoto_counted]
      split
      · rw [emitGoto_after]
      · split
        · rw [emitGoto_pushed]
        · simp

section Rounds

variable {ctx : Context} {atom : Code} {f : Place → List Place} {isBackward : Bool}

def distance (ctx : Context) (isBackward : Bool) (x : Place) : Nat :=
  if isBackward then x.cptr else ctx.input.cbufEnd - x.cptr

theorem distance_lt {x : Place} (valid : Valid ctx x) :
    distance ctx isBackward x < ctx.input.cbufEnd + 1 := by
  have inside := valid.inside
  simp only [distance]
  split <;> omega

def Onwards (ctx : Context) (isBackward : Bool) (f : Place → List Place) : Prop :=
  ∀ x, ∀ y ∈ f x, Reaches ctx.toSubject ctx.captureCount isBackward x y

theorem Onwards.keeps (onwards : Onwards ctx isBackward f) : Keeps ctx f :=
  fun x valid y member => (onwards x y member valid).1

theorem Onwards.descends (onwards : Onwards ctx isBackward f) :
    Descends ctx (distance ctx isBackward) (advancing f) := by
  intro x valid y member
  obtain ⟨found, moved⟩ := List.mem_filter.mp member
  have reached := onwards x y found valid
  have moved : y.cptr ≠ x.cptr := by simpa using moved
  have inside := reached.1.inside
  have way := reached.2
  refine ⟨reached.1, ?_⟩
  cases isBackward with
  | false =>
      simp only [Onward, distance, Bool.false_eq_true, if_false] at way ⊢
      omega
  | true =>
      simp only [Onward, distance, if_true] at way ⊢
      omega

theorem stackRange_gt {n : Nat} (small : n ≤ int32Max) : n < stackRange :=
  Nat.lt_of_le_of_lt small (by decide)

theorem Implements.moreRounds {round : Code} (coded : Implements ctx round f)
    {measure : Place → Nat} (descends : Descends ctx measure f)
    (near : ∀ x, Valid ctx x → measure x < ctx.input.cbufEnd + 1) (q : Quantifier) :
    Implements ctx (moreRounds q round) (upTo f q.greedy (q.rounds ctx.toSubject)) := by
  have bounded := q.bounded
  simp only [Regexp.moreRounds, Quantifier.rounds]
  split
  · exact coded.upTo_star descends q.greedy near
  · split
    · exact coded.upTo_counted descends.keeps q.greedy (by omega) (stackRange_gt (by omega))
    · have none : q.quantMax - q.quantMin = 0 := by omega
      rw [none]
      exact .nil

theorem Implements.leastRounds (coded : Implements ctx atom f) (keeps : Keeps ctx f)
    (q : Quantifier) (nonzero : q.quantMin ≠ 0) :
    Implements ctx (leastRounds q atom) (Choices.exactly f q.quantMin) := by
  have bounded := q.bounded
  have ordered := q.ordered
  simp only [Regexp.leastRounds]
  split
  · next one =>
      rw [one]
      exact coded.congr fun x _ => by simp [Choices.exactly]
  · exact coded.exactly keeps (by omega) (stackRange_gt (by omega))

theorem Balanced.moreRounds {round : Code} (balanced : Balanced round) (q : Quantifier) :
    Balanced (moreRounds q round) := by
  simp only [Regexp.moreRounds]
  split
  · exact (balanced.split _ _).append fun _ => rfl
  · split
    · exact (balanced.split _ _).countedLoop _
    · exact .nil

theorem Balanced.leastRounds (balanced : Balanced atom) (q : Quantifier) :
    Balanced (leastRounds q atom) := by
  simp only [Regexp.leastRounds]
  split
  · exact balanced
  · exact balanced.countedLoop _

theorem Balanced.saveReset (first last : Nat) : Balanced (saveResetCode first last) := by
  simp only [saveResetCode]
  split
  · exact fun _ => rfl
  · exact .nil

theorem Implements.saveReset {captures count : Nat} (inside : captures + count ≤ ctx.captureCount) :
    Implements ctx (saveResetCode captures (captures + count)) fun x => [x.reset captures count] := by
  simp only [saveResetCode]
  by_cases none : count = 0
  · simp only [none, Nat.add_zero, ne_eq, not_true_eq_false, if_false, Place.reset, if_true]
    exact .nil
  · rw [if_pos (by omega)]
    apply Implements.single
    intro x _ pc stack
    right
    refine ⟨_, ?_, rfl⟩
    simp only [execute, Place.reset, if_neg none]
    rw [if_pos (by omega)]

theorem Implements.emitLoops (coded : Implements ctx atom f) (balanced : Balanced atom)
    (onwards : Onwards ctx isBackward f)
    (advances : needCheckAdvance true atom = false → ∀ x, Valid ctx x → ∀ y ∈ f x, y.cptr ≠ x.cptr)
    (q : Quantifier) {captures count : Nat} (inside : captures + count ≤ ctx.captureCount) :
    Implements ctx (emitLoops q atom captures (captures + count)) fun x =>
      quantified ctx.toSubject q f (if q.quantMin = 0 then x.reset captures count else x) := by
  have round := coded.withCheck advances
  have more := round.moreRounds onwards.descends (fun x valid => distance_lt valid) q
  rw [emitLoops_eq]
  by_cases zero : q.quantMin = 0
  · have rest : Implements ctx
        (if q.quantMax = 1 then
          splitOp q.greedy (codeSize (Regexp.withCheck (needCheckAdvance true atom) atom)) ::
            Regexp.withCheck (needCheckAdvance true atom) atom
        else Regexp.moreRounds q (Regexp.withCheck (needCheckAdvance true atom) atom))
        (upTo (advancing f) q.greedy (q.rounds ctx.toSubject)) := by
      split
      · next one =>
          have rounds : q.rounds ctx.toSubject = 1 := by simp [Quantifier.rounds, one, zero, int32Max]
          rw [rounds]
          exact round.upTo_once q.greedy
      · exact more
    have whole := (Implements.saveReset inside).append rest (Balanced.saveReset _ _)
      (by
        intro x valid y member
        rw [List.mem_singleton.mp member]
        exact valid.reset captures count)
    simp only [if_pos zero]
    exact whole.congr fun x _ => by simp [quantified, zero, Choices.exactly]
  · simp only [if_neg zero]
    split
    · next plus =>
        have same : ∀ x, Valid ctx x → f x = advancing f x := fun x valid =>
          (advancing_eq (advances plus.2.2 x valid)).symm
        have whole := (coded.congr same).upTo_plus onwards.descends q.greedy
          (fun x valid => distance_lt valid)
        apply whole.congr
        intro x valid
        simp [quantified, Quantifier.rounds, plus.1, plus.2.1, Choices.exactly, same x valid]
    · apply (coded.leastRounds onwards.keeps q zero).append more (balanced.leastRounds q)
      intro x valid
      exact exactly_holds onwards.keeps q.quantMin valid

theorem Balanced.emitLoops (balanced : Balanced atom) (q : Quantifier) (first last : Nat) :
    Balanced (emitLoops q atom first last) := by
  have round := balanced.withCheck (needCheckAdvance true atom)
  rw [emitLoops_eq]
  simp only
  split
  · apply (Balanced.saveReset first last).append
    split
    · exact round.split _ _
    · exact round.moreRounds q
  · split
    · exact balanced.append fun depth => by simp [depthAfter]
    · exact (balanced.leastRounds q).append (round.moreRounds q)

theorem Balanced.emitQuantifier (balanced : Balanced atom) (q : Quantifier) (first last : Nat) :
    Balanced (emitQuantifier q atom first last) := by
  simp only [Regexp.emitQuantifier]
  split
  · split
    · intro depth
      exact (balanced.append fun _ => rfl) depth
    · exact balanced.emitLoops q first last
  · exact balanced.emitLoops q first last

theorem Implements.emitQuantifier (coded : Implements ctx atom f) (balanced : Balanced atom)
    (onwards : Onwards ctx isBackward f)
    (advances : needCheckAdvance true atom = false → ∀ x, Valid ctx x → ∀ y ∈ f x, y.cptr ≠ x.cptr)
    {captures count : Nat} (plain : ∀ n, isSimpleQuantifier atom = some n → count = 0)
    (q : Quantifier) (inside : captures + count ≤ ctx.captureCount) :
    Implements ctx (emitQuantifier q atom captures (captures + count)) fun x =>
      quantified ctx.toSubject q f (if q.quantMin = 0 then x.reset captures count else x) := by
  have loops := coded.emitLoops balanced onwards advances q inside
  simp only [Regexp.emitQuantifier]
  split
  · next n simple =>
      split
      · next chosen =>
          have whole := coded.simpleGreedyQuant onwards.keeps simple chosen.2.2 chosen.1 chosen.2.1
          apply whole.congr
          intro x _
          simp [Place.reset, plain n simple]
      · exact loops
  · exact loops

end Rounds

def Plain (code : Code) : Prop :=
  ∀ i ∈ code, i.advanceEffect ≠ .unknown

def Advances (code : Code) : Prop :=
  ∃ i ∈ code, i.advanceEffect = .advances

theorem needCheckAdvance_false {ret : Bool} {code : Code}
    (unneeded : needCheckAdvance ret code = false) :
    Plain code ∧ (ret = false ∨ Advances code) := by
  induction code generalizing ret with
  | nil => exact ⟨by simp [Plain], .inl unneeded⟩
  | cons i rest ih =>
      simp only [needCheckAdvance] at unneeded
      cases kind : i.advanceEffect with
      | advances =>
          rw [kind] at unneeded
          have later := (ih unneeded).1
          exact ⟨List.forall_mem_cons.mpr ⟨by simp [kind], later⟩, .inr ⟨i, by simp, kind⟩⟩
      | neutral =>
          rw [kind] at unneeded
          obtain ⟨later, advances⟩ := ih unneeded
          refine ⟨List.forall_mem_cons.mpr ⟨by simp [kind], later⟩, advances.imp_right ?_⟩
          rintro ⟨j, member, here⟩
          exact ⟨j, List.mem_cons_of_mem i member, here⟩
      | unknown =>
          rw [kind] at unneeded
          cases unneeded

theorem simpleCount_known {i : Instr} {n : Nat} (simple : i.simpleCount = some n) :
    i.advanceEffect ≠ .unknown := by
  cases i <;> simp_all [Instr.simpleCount, Instr.advanceEffect]

theorem isSimpleQuantifier_plain {code : Code} {n : Nat}
    (simple : isSimpleQuantifier code = some n) :
    Plain code ∧ ∀ i ∈ code, i.simpleCount ≠ none := by
  induction code generalizing n with
  | nil => simp [Plain]
  | cons i rest ih =>
      simp only [isSimpleQuantifier] at simple
      split at simple
      · next a b first later =>
          obtain ⟨plain, counted⟩ := ih later
          exact ⟨List.forall_mem_cons.mpr ⟨simpleCount_known first, plain⟩,
            List.forall_mem_cons.mpr ⟨by simp [first], counted⟩⟩
      · cases simple

theorem splitOp_unknown (greedy : Bool) (offset : Int) :
    (splitOp greedy offset).advanceEffect = .unknown := by
  cases greedy <;> rfl

theorem Plain.left {a b : Code} (plain : Plain (a ++ b)) : Plain a :=
  fun i member => plain i (List.mem_append_left b member)

theorem Plain.right {a b : Code} (plain : Plain (a ++ b)) : Plain b :=
  fun i member => plain i (List.mem_append_right a member)

theorem not_plain_goto {op : Int → Instr} (target : Int) (code : Code)
    (unknown : ∀ offset, (op offset).advanceEffect = .unknown) :
    ¬ Plain (emitGoto op target code) := by
  intro plain
  exact plain.right _ (List.mem_singleton_self _) (unknown _)

theorem not_plain_counted (n : Nat) (body : Code) : ¬ Plain (countedLoop n body) := by
  intro plain
  have loop : Plain ([.pushI32 n] ++ emitGoto .loop 0 body) := plain.left
  exact not_plain_goto 0 body (fun _ => rfl) loop.right

theorem moreRounds_plain {q : Quantifier} {round : Code} (plain : Plain (moreRounds q round)) :
    q.quantMax = q.quantMin ∧ moreRounds q round = [] := by
  have ordered := q.ordered
  simp only [moreRounds] at plain ⊢
  split
  · next infinite =>
      rw [if_pos infinite] at plain
      exact absurd plain (not_plain_goto 0 _ fun _ => rfl)
  · next finite =>
      rw [if_neg finite] at plain
      split
      · next more =>
          rw [if_pos more] at plain
          exact absurd plain (not_plain_counted _ _)
      · exact ⟨by omega, rfl⟩

theorem emitLoops_plain {q : Quantifier} {atom : Code} {first last : Nat}
    (plain : Plain (emitLoops q atom first last)) :
    (q.quantMin = 1 ∧ q.quantMax = 1 ∧ emitLoops q atom first last = atom) ∨
      (q.quantMin = 0 ∧ q.quantMax = 0 ∧ emitLoops q atom first last = saveResetCode first last) := by
  rw [emitLoops_eq] at plain ⊢
  simp only at plain ⊢
  by_cases zero : q.quantMin = 0
  · right
    simp only [if_pos zero] at plain ⊢
    have rest := plain.right
    split at rest
    · exact absurd (splitOp_unknown _ _) (rest _ (List.mem_cons_self ..))
    · next many =>
        obtain ⟨none, nothing⟩ := moreRounds_plain rest
        rw [if_neg many, nothing, List.append_nil]
        exact ⟨zero, none.trans zero, rfl⟩
  · left
    simp only [if_neg zero] at plain ⊢
    split at plain
    · exact absurd plain (not_plain_goto 0 atom fun offset => splitOp_unknown _ offset)
    · next other =>
        obtain ⟨same, nothing⟩ := moreRounds_plain plain.right
        have least := plain.left
        rw [if_neg other, nothing, List.append_nil]
        simp only [leastRounds] at least ⊢
        split at least
        · next one => exact ⟨one, same.trans one, by rw [if_pos one]⟩
        · exact absurd least (not_plain_counted _ _)

theorem emitQuantifier_plain {q : Quantifier} {atom : Code} {first last : Nat}
    (plain : Plain (emitQuantifier q atom first last)) :
    (q.quantMin = 1 ∧ q.quantMax = 1 ∧ emitQuantifier q atom first last = atom) ∨
      (q.quantMin = 0 ∧ q.quantMax = 0 ∧
        emitQuantifier q atom first last = saveResetCode first last) := by
  simp only [emitQuantifier] at plain ⊢
  split
  · next n simple =>
      rw [simple] at plain
      simp only at plain
      split at plain
      · exact absurd rfl (plain _ (List.mem_cons_self ..))
      · next unchosen =>
          rw [if_neg unchosen]
          exact emitLoops_plain plain
  · next none =>
      rw [none] at plain
      exact emitLoops_plain plain

end BreezeJs.Regexp
