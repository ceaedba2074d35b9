import BreezeJs.Regexp.Implements

set_option autoImplicit false

namespace BreezeJs.Regexp

open SizedCode Choices

variable {ctx : Context}

theorem emitGoto_append (op : Int → Instr) (a b : Code) (target : Int) :
    emitGoto op (codeSize a + target) (a ++ b) = a ++ emitGoto op target b := by
  have offset : codeSize a + target - (codeSize (a ++ b) + 5) = target - (codeSize b + 5) := by
    simp only [codeSize_append]
    omega
  simp only [emitGoto, offset, List.append_assoc]

@[simp] theorem size_splitOp (greedy : Bool) (offset : Int) : (splitOp greedy offset).size = 5 := by
  cases greedy <;> rfl

@[simp] theorem stackAfter_splitOp (greedy : Bool) (offset : Int) (depth : Nat) :
    (splitOp greedy offset).stackAfter depth = depth := by
  cases greedy <;> rfl

section Jumps

variable {pc exit : Int} {stack : List Nat} {x : Place} {rest : Code} {found more : List Thread}

theorem explores_step {i : Instr} {t : Thread}
    (placed : CodeAt Instr.size ctx.code pc (i :: rest))
    (taken : execute ctx (x.thread (pc + i.size) stack) i = .step t)
    (explores : Explores ctx t found) : Explores ctx (x.thread pc stack) found :=
  .step ((effect_at placed x stack).trans taken) explores

theorem explores_goto {offset : Int}
    (placed : CodeAt Instr.size ctx.code pc (.goto offset :: rest))
    (address : exit = pc + 5 + offset) (explores : Explores ctx (x.thread exit stack) found) :
    Explores ctx (x.thread pc stack) found := by
  subst address
  exact explores_step placed rfl explores

theorem explores_drop {top : Nat} (placed : CodeAt Instr.size ctx.code pc (.drop :: rest))
    (explores : Explores ctx (x.thread (pc + 1) stack) found) :
    Explores ctx (x.thread pc (top :: stack)) found :=
  explores_step placed rfl explores

theorem explores_push {value : Nat}
    (placed : CodeAt Instr.size ctx.code pc (.pushI32 value :: rest))
    (room : stack.length < ctx.stackSize)
    (explores : Explores ctx (x.thread (pc + 5) (value :: stack)) found) :
    Explores ctx (x.thread pc stack) found := by
  refine explores_step placed ?_ explores
  simp [execute, push, room, Instr.size]

theorem explores_loop {offset : Int} {n : Nat}
    (placed : CodeAt Instr.size ctx.code pc (.loop offset :: rest)) (small : n < stackRange)
    (explores : Explores ctx (x.thread (if n = 0 then pc + 5 else pc + 5 + offset) (n :: stack))
      found) : Explores ctx (x.thread pc ((n + 1) :: stack)) found := by
  refine explores_step placed ?_ explores
  have counted : (n + 1 + (stackRange - 1)) % stackRange = n := by
    have whole : n + 1 + (stackRange - 1) = n + stackRange := by omega
    rw [whole, Nat.add_mod_right, Nat.mod_eq_of_lt small]
  simp only [execute, counted, Instr.size]
  by_cases last : n = 0 <;> simp [last]

theorem explores_split {greedy : Bool} {offset : Int}
    (placed : CodeAt Instr.size ctx.code pc (splitOp greedy offset :: rest))
    (address : exit = pc + 5 + offset) (next : Explores ctx (x.thread (pc + 5) stack) found)
    (target : Explores ctx (x.thread exit stack) more) :
    Explores ctx (x.thread pc stack) (if greedy then found ++ more else more ++ found) := by
  subst address
  cases greedy with
  | false => exact .split (effect_at placed x stack) target next
  | true => exact .split (effect_at placed x stack) next target

end Jumps

section Rounds

variable {atom : Code} {f : Place → List Place} {measure : Place → Nat}

def Descends (ctx : Context) (measure : Place → Nat) (f : Place → List Place) : Prop :=
  ∀ x, Valid ctx x → ∀ y ∈ f x, Valid ctx y ∧ measure y < measure x

def Keeps (ctx : Context) (f : Place → List Place) : Prop :=
  ∀ x, Valid ctx x → ∀ y ∈ f x, Valid ctx y

theorem Descends.keeps (descends : Descends ctx measure f) : Keeps ctx f :=
  fun x valid y member => (descends x valid y member).1

theorem length_withCheck (check : Bool) (atom : Code) :
    codeSize (withCheck check atom) = codeSize atom + if check then 2 else 0 := by
  cases check with
  | false => simp [withCheck]
  | true =>
      simp only [withCheck, if_true, List.cons_append, codeSize_cons, codeSize_append,
        codeSize_nil, Instr.size]
      omega

theorem Balanced.withCheck (balanced : Balanced atom) (check : Bool) :
    Balanced (withCheck check atom) := by
  cases check with
  | false => exact balanced
  | true =>
      intro depth
      simp [Regexp.withCheck, depthAfter, depthAfter_append, Instr.stackAfter, balanced (depth + 1)]

theorem Implements.withCheck (coded : Implements ctx atom f)
    {check : Bool} (advances : check = false → ∀ x, Valid ctx x → ∀ y ∈ f x, y.cptr ≠ x.cptr) :
    Implements ctx (withCheck check atom) (advancing f) := by
  intro pc exit stack x found placed address fits valid onward
  cases check with
  | false =>
      have same : advancing f x = f x := by
        apply List.filter_eq_self.mpr
        intro y member
        simpa using advances rfl x valid y member
      rw [same] at onward ⊢
      exact coded pc exit stack x found placed address fits valid onward
  | true =>
      simp only [Regexp.withCheck, if_true] at placed fits
      have body : CodeAt Instr.size ctx.code (pc + 1) (atom ++ [.checkAdvance]) :=
        placed.tail rfl
      have check : CodeAt Instr.size ctx.code (pc + 1 + codeSize atom) [.checkAdvance] :=
        at_right body rfl
      rw [length_withCheck] at address
      simp only [List.cons_append, peak, Instr.stackAfter, peak_append] at fits
      have deep := le_peak (stack.length + 1) atom
      rw [advancing, flatMap_filter]
      have pushed : execute ctx (x.thread (pc + 1) stack) .pushCharPos =
          .step (x.thread (pc + 1) (x.cptr :: stack)) := by
        simp only [execute, push]
        rw [if_pos (by omega)]
      apply explores_step placed pushed
      apply coded (pc + 1) (pc + 1 + codeSize atom) (x.cptr :: stack) x _ body.left rfl
        (by simp only [List.length_cons]; omega) valid
      intro y member
      by_cases stuck : y.cptr = x.cptr
      · simp only [stuck, ne_eq, not_true_eq_false, decide_false, Bool.false_eq_true, if_false]
        apply Explores.noMatch
        rw [effect_at check]
        simp [execute, stuck]
      · simp only [ne_eq, stuck, not_false_eq_true, decide_true, if_true]
        have popped : execute ctx (y.thread (pc + 1 + codeSize atom + 1) (x.cptr :: stack))
            .checkAdvance = .step (y.thread exit stack) := by
          have next : exit = pc + 1 + codeSize atom + 1 := by
            simp only [if_true] at address
            omega
          simp [execute, Ne.symm stuck, next]
        apply explores_step check popped
        exact onward y (List.mem_filter.mpr ⟨member, by simpa using stuck⟩)

def countedLoop (n : Nat) (body : Code) : Code :=
  .pushI32 n :: emitGoto .loop 0 body ++ [.drop]

theorem emitGoto_counted (n : Nat) (body : Code) :
    emitGoto .loop 5 (.pushI32 n :: body) ++ [.drop] = countedLoop n body := by
  have moved := emitGoto_append .loop [.pushI32 n] body 0
  have five : ((codeSize [Instr.pushI32 n] : Nat) : Int) + 0 = 5 := by simp [Instr.size]
  rw [five, List.singleton_append] at moved
  rw [countedLoop, moved, List.singleton_append]

theorem length_countedLoop (n : Nat) (body : Code) :
    codeSize (countedLoop n body) = codeSize body + 11 := by
  simp only [countedLoop, emitGoto, codeSize_cons, codeSize_append, codeSize_nil, Instr.size,
    List.cons_append]
  omega

theorem Balanced.countedLoop {body : Code} (balanced : Balanced body) (n : Nat) :
    Balanced (countedLoop n body) := by
  intro depth
  simp [Regexp.countedLoop, emitGoto, depthAfter, depthAfter_append, Instr.stackAfter,
    balanced (depth + 1)]

theorem peak_countedLoop (body : Code) (depth n : Nat) :
    peak (depth + 1) body ≤ peak depth (countedLoop n body) := by
  simp only [countedLoop, emitGoto, peak, List.cons_append, peak_append, Instr.stackAfter]
  omega

section Counted

variable {n : Nat} {body : Code} {pc exit : Int} {stack : List Nat} {x : Place}
  {found : List Thread}

theorem body_countedLoop (placed : CodeAt Instr.size ctx.code pc (countedLoop n body)) :
    CodeAt Instr.size ctx.code (pc + 5) body := by
  have rest : CodeAt Instr.size ctx.code (pc + 5) (emitGoto .loop 0 body ++ [.drop]) :=
    placed.tail rfl
  exact rest.left.left

theorem end_countedLoop (placed : CodeAt Instr.size ctx.code pc (countedLoop n body)) :
    CodeAt Instr.size ctx.code (pc + 5 + codeSize body + 5) [.drop] := by
  have rest : CodeAt Instr.size ctx.code (pc + 5) (emitGoto .loop 0 body ++ [.drop]) :=
    placed.tail rfl
  apply at_right rest
  simp only [emitGoto, codeSize_append, codeSize_cons, codeSize_nil, Instr.size]
  omega

theorem leave_countedLoop {top : Nat}
    (placed : CodeAt Instr.size ctx.code pc (countedLoop n body))
    (address : exit = pc + codeSize (countedLoop n body))
    (explores : Explores ctx (x.thread exit stack) found) :
    Explores ctx (x.thread (pc + 5 + codeSize body + 5) (top :: stack)) found := by
  apply explores_drop (end_countedLoop placed)
  have same : exit = pc + 5 + codeSize body + 5 + 1 := by
    rw [length_countedLoop] at address
    omega
  rwa [← same]

theorem again_countedLoop {count : Nat}
    (placed : CodeAt Instr.size ctx.code pc (countedLoop n body))
    (address : exit = pc + codeSize (countedLoop n body)) (small : count < stackRange)
    (last : count = 0 → Explores ctx (x.thread exit stack) found)
    (again : count ≠ 0 → Explores ctx (x.thread (pc + 5) (count :: stack)) found) :
    Explores ctx (x.thread (pc + 5 + codeSize body) ((count + 1) :: stack)) found := by
  have rest : CodeAt Instr.size ctx.code (pc + 5) (emitGoto .loop 0 body ++ [.drop]) :=
    placed.tail rfl
  have jump : CodeAt Instr.size ctx.code (pc + 5 + codeSize body)
      [.loop (0 - (codeSize body + 5))] := at_right rest.left rfl
  apply explores_loop jump small
  by_cases finished : count = 0
  · rw [if_pos finished]
    exact leave_countedLoop placed address (last finished)
  · have back : pc + 5 + codeSize body + 5 + (0 - (codeSize body + 5)) = pc + 5 := by omega
    rw [if_neg finished, back]
    exact again finished

end Counted

theorem Implements.exactly (coded : Implements ctx atom f) (keeps : Keeps ctx f) {n : Nat}
    (positive : 0 < n) (small : n < stackRange) :
    Implements ctx (countedLoop n atom) (exactly f n) := by
  intro pc exit stack x found placed address fits valid onward
  have deep := peak_countedLoop atom stack.length n
  have room := le_peak (stack.length + 1) atom
  have round : ∀ count x, count < n → Valid ctx x →
      (∀ y ∈ Choices.exactly f (count + 1) x, Explores ctx (y.thread exit stack) (found y)) →
      Explores ctx (x.thread (pc + 5) ((count + 1) :: stack))
        ((Choices.exactly f (count + 1) x).flatMap found) := by
    intro count
    induction count with
    | zero =>
        intro x _ valid onward
        simp only [Choices.exactly, List.flatMap_assoc]
        apply coded (pc + 5) (pc + 5 + codeSize atom) (1 :: stack) x _
          (body_countedLoop placed) rfl (by simp only [List.length_cons]; omega) valid
        intro y member
        apply again_countedLoop placed address (by omega)
        · intro _
          simpa using onward y (by simpa [Choices.exactly] using member)
        · intro more
          exact absurd rfl more
    | succ count ih =>
        intro x less valid onward
        rw [Choices.exactly, List.flatMap_assoc]
        apply coded (pc + 5) (pc + 5 + codeSize atom) ((count + 2) :: stack) x _
          (body_countedLoop placed) rfl (by simp only [List.length_cons]; omega) valid
        intro y member
        apply again_countedLoop placed address (by omega)
        · intro last
          omega
        · intro _
          apply ih y (by omega) (keeps x valid y member)
          intro z later
          exact onward z (List.mem_flatMap_of_mem member later)
  obtain ⟨count, rfl⟩ : ∃ count, n = count + 1 := ⟨n - 1, by omega⟩
  exact explores_push placed (by omega) (round count x (by omega) valid onward)

theorem tail_split {greedy : Bool} {offset pc : Int} {rest : Code}
    (placed : CodeAt Instr.size ctx.code pc (splitOp greedy offset :: rest)) :
    CodeAt Instr.size ctx.code (pc + 5) rest :=
  placed.tail (by rw [size_splitOp]; rfl)

theorem peak_split (greedy : Bool) (offset : Int) (depth : Nat) (rest : Code) :
    peak depth (splitOp greedy offset :: rest) = peak depth rest := by
  simp [peak, le_peak]

theorem Balanced.split {body : Code} (balanced : Balanced body) (greedy : Bool) (offset : Int) :
    Balanced (splitOp greedy offset :: body) := by
  intro depth
  simp [depthAfter, balanced depth]

theorem Implements.upTo_once (coded : Implements ctx atom f) (greedy : Bool) :
    Implements ctx (splitOp greedy (codeSize atom) :: atom) (upTo f greedy 1) := by
  intro pc exit stack x found placed address fits valid onward
  rw [peak_split] at fits
  have size : exit = pc + 5 + codeSize atom := by
    simp only [codeSize_cons, size_splitOp] at address
    omega
  rw [upTo_flatMap]
  apply explores_split placed size
  · apply coded (pc + 5) exit stack x _ (tail_split placed) size fits valid
    intro y member
    simpa [upTo] using onward y (mem_upTo.mpr (.inr ⟨y, member, by simp [upTo]⟩))
  · exact onward x (mem_upTo.mpr (.inl rfl))

theorem Implements.upTo_counted (coded : Implements ctx atom f) (keeps : Keeps ctx f)
    (greedy : Bool) {n : Nat} (positive : 0 < n) (small : n < stackRange) :
    Implements ctx (countedLoop n (splitOp greedy (codeSize atom + 5) :: atom))
      (upTo f greedy n) := by
  intro pc exit stack x found placed address fits valid onward
  have deep := peak_countedLoop (splitOp greedy (codeSize atom + 5) :: atom) stack.length n
  rw [peak_split] at deep
  have room := le_peak (stack.length + 1) atom
  have body := body_countedLoop placed
  have size : (codeSize (splitOp greedy (codeSize atom + 5) :: atom) : Int) = 5 + codeSize atom := by
    simp
  have out : pc + 5 + codeSize (splitOp greedy (codeSize atom + 5) :: atom) + 5 =
      pc + 5 + 5 + (codeSize atom + 5) := by
    omega
  have after : pc + 5 + codeSize (splitOp greedy (codeSize atom + 5) :: atom) =
      pc + 5 + 5 + codeSize atom := by
    omega
  have round : ∀ count x, count < n → Valid ctx x →
      (∀ y ∈ upTo f greedy (count + 1) x, Explores ctx (y.thread exit stack) (found y)) →
      Explores ctx (x.thread (pc + 5) ((count + 1) :: stack))
        ((upTo f greedy (count + 1) x).flatMap found) := by
    intro count
    induction count with
    | zero =>
        intro x _ valid onward
        rw [upTo_flatMap]
        apply explores_split body out
        · apply coded (pc + 5 + 5) _ (1 :: stack) x _ (tail_split body) rfl
            (by simp only [List.length_cons]; omega) valid
          intro y member
          rw [← after]
          apply again_countedLoop placed address (by omega)
          · intro _
            simpa [upTo] using onward y (mem_upTo.mpr (.inr ⟨y, member, by simp [upTo]⟩))
          · intro more
            exact absurd rfl more
        · exact leave_countedLoop placed address (onward x (mem_upTo.mpr (.inl rfl)))
    | succ count ih =>
        intro x less valid onward
        rw [upTo_flatMap]
        apply explores_split body out
        · apply coded (pc + 5 + 5) _ ((count + 2) :: stack) x _ (tail_split body) rfl
            (by simp only [List.length_cons]; omega) valid
          intro y member
          rw [← after]
          apply again_countedLoop placed address (by omega)
          · intro last
            omega
          · intro _
            apply ih y (by omega) (keeps x valid y member)
            intro z later
            exact onward z (mem_upTo.mpr (.inr ⟨y, member, later⟩))
        · exact leave_countedLoop placed address (onward x (mem_upTo.mpr (.inl rfl)))
  obtain ⟨count, rfl⟩ : ∃ count, n = count + 1 := ⟨n - 1, by omega⟩
  exact explores_push placed (by omega) (round count x (by omega) valid onward)

theorem Implements.upTo_star (coded : Implements ctx atom f)
    (descends : Descends ctx measure f) (greedy : Bool) {n : Nat}
    (bounded : ∀ x, Valid ctx x → measure x < n) :
    Implements ctx (emitGoto .goto 0 (splitOp greedy (codeSize atom + 5) :: atom))
      (upTo f greedy n) := by
  intro pc exit stack x found placed address fits valid onward
  have body : CodeAt Instr.size ctx.code pc (splitOp greedy (codeSize atom + 5) :: atom) :=
    placed.left
  rw [emitGoto, peak_append, peak_split] at fits
  have size : (codeSize (splitOp greedy (codeSize atom + 5) :: atom) : Int) = 5 + codeSize atom := by
    simp
  have jump : CodeAt Instr.size ctx.code (pc + 5 + codeSize atom)
      [.goto (0 - (codeSize (splitOp greedy (codeSize atom + 5) :: atom) + 5))] :=
    at_right placed (by omega)
  simp only [emitGoto, codeSize_append, codeSize_cons, codeSize_nil, size_splitOp] at address
  simp only [Instr.size] at address
  have out : exit = pc + 5 + (codeSize atom + 5) := by omega
  have back : pc = pc + 5 + codeSize atom + 5 +
      (0 - (codeSize (splitOp greedy (codeSize atom + 5) :: atom) + 5)) := by
    omega
  have rounds : ∀ n x, measure x < n → Valid ctx x →
      (∀ y ∈ upTo f greedy n x, Explores ctx (y.thread exit stack) (found y)) →
      Explores ctx (x.thread pc stack) ((upTo f greedy n x).flatMap found) := by
    intro n
    induction n with
    | zero =>
        intro x small
        omega
    | succ n ih =>
        intro x small valid onward
        rw [upTo_flatMap]
        apply explores_split body out
        · apply coded (pc + 5) (pc + 5 + codeSize atom) stack x _ (tail_split body) rfl
            (by omega) valid
          intro y member
          have less := descends x valid y member
          apply explores_goto jump back
          apply ih y (by omega) less.1
          intro z later
          exact onward z (mem_upTo.mpr (.inr ⟨y, member, later⟩))
        · exact onward x (mem_upTo.mpr (.inl rfl))
  exact rounds n x (bounded x valid) valid onward

theorem Implements.upTo_plus (coded : Implements ctx atom f)
    (descends : Descends ctx measure f) (greedy : Bool) {n : Nat}
    (bounded : ∀ x, Valid ctx x → measure x < n) :
    Implements ctx (emitGoto (splitOp (!greedy)) 0 atom)
      (fun x => (f x).flatMap (upTo f greedy n)) := by
  intro pc exit stack x found placed address fits valid onward
  simp only [emitGoto] at placed address fits
  rw [peak_append] at fits
  have again : CodeAt Instr.size ctx.code (pc + codeSize atom)
      [splitOp (!greedy) (0 - (codeSize atom + 5))] := at_right placed rfl
  have size : exit = pc + codeSize atom + 5 := by
    simp only [codeSize_append, codeSize_cons, codeSize_nil, size_splitOp] at address
    omega
  have rounds : ∀ n x, measure x < n → Valid ctx x →
      (∀ y ∈ upTo f greedy n x, Explores ctx (y.thread exit stack) (found y)) →
      Explores ctx (x.thread (pc + codeSize atom) stack) ((upTo f greedy n x).flatMap found) := by
    intro n
    induction n with
    | zero =>
        intro x small
        omega
    | succ n ih =>
        intro x small valid onward
        have more : Explores ctx (x.thread pc stack)
            ((f x).flatMap fun y => (upTo f greedy n y).flatMap found) := by
          apply coded pc (pc + codeSize atom) stack x _ placed.left rfl (by omega) valid
          intro y member
          have less := descends x valid y member
          apply ih y (by omega) less.1
          intro z later
          exact onward z (mem_upTo.mpr (.inr ⟨y, member, later⟩))
        have done := onward x (mem_upTo.mpr (.inl rfl))
        rw [size] at done
        have both := explores_split again (show pc = pc + codeSize atom + 5 + _ by omega) done more
        rw [upTo_flatMap]
        cases greedy <;> simpa using both
  rw [List.flatMap_assoc]
  apply coded pc (pc + codeSize atom) stack x _ placed.left rfl (by omega) valid
  intro y member
  have less := descends x valid y member
  apply rounds n y (bounded y less.1) less.1
  intro z later
  exact onward z (List.mem_flatMap_of_mem member later)

end Rounds

end BreezeJs.Regexp
