import BreezeJs.Regexp.Instructions
import BreezeJs.Regexp.Quantifiers

set_option autoImplicit false

namespace BreezeJs.Regexp

open SizedCode

section Emission

variable (folding : CaseFolding) (flags : Flags)

inductive Emits : Bool → Node → Nat → Code → Nat → Prop where
  | empty {isBackward : Bool} {n : Nat} : Emits isBackward .empty n [] n
  | lineStart {isBackward : Bool} {n : Nat} : Emits isBackward .lineStart n [.lineStart] n
  | lineEnd {isBackward : Bool} {n : Nat} : Emits isBackward .lineEnd n [.lineEnd] n
  | wordBoundary {isBackward : Bool} {n : Nat} {negated : Bool} :
      Emits isBackward (.wordBoundary negated) n
        [if negated then .notWordBoundary else .wordBoundary] n
  | char {isBackward : Bool} {n c : Nat} :
      Emits isBackward (.char c) n (around isBackward [emitChar (canonical folding flags c)]) n
  | dot {isBackward : Bool} {n : Nat} :
      Emits isBackward .dot n (around isBackward [if flags.dotAll then .any else .dot]) n
  | charSet {isBackward : Bool} {n : Nat} {cr : Unicode.CharRange} {code : Code} :
      emitRange cr = .ok code → Emits isBackward (.charSet cr) n (around isBackward code) n
  | charClass {isBackward : Bool} {n : Nat} {cls : CharClass} {code : Code} :
      emitRange (parseCharClass folding flags cls) = .ok code →
      Emits isBackward (.charClass cls) n (around isBackward code) n
  | backReference {isBackward : Bool} {n capture : Nat} :
      Emits isBackward (.backReference capture) n
        [if isBackward then .backwardBackReference capture else .backReference capture] n
  | capture {isBackward : Bool} {n m : Nat} {body : Node} {code : Code} :
      n < captureCountMax → Emits isBackward body (n + 1) code m →
      Emits isBackward (.capture body) n
        ([if isBackward then .saveEnd n else .saveStart n] ++ code ++
          [if isBackward then .saveStart n else .saveEnd n]) m
  | lookaround {isBackward isNeg ahead : Bool} {n m : Nat} {body : Node} {code : Code} :
      Emits ahead body n code m →
      Emits isBackward (.lookaround isNeg ahead body) n
        ((if isNeg then Instr.negativeLookahead else .lookahead) (codeSize code + 1) ::
          (code ++ [.match_])) m
  | seqForward {n m k : Nat} {first rest : Node} {a b : Code} :
      Emits false first n a m → Emits false rest m b k → Emits false (.seq first rest) n (a ++ b) k
  | seqBackward {n m k : Nat} {first rest : Node} {a b : Code} :
      Emits true first n a m → Emits true rest m b k → Emits true (.seq first rest) n (b ++ a) k
  | alt {isBackward : Bool} {n m k : Nat} {left right : Node} {a b : Code} :
      Emits isBackward left n a m → Emits isBackward right m b k →
      Emits isBackward (.alt left right) n
        (.splitNextFirst (codeSize a + 5) :: (a ++ .goto (codeSize b) :: b)) k
  | quant {isBackward : Bool} {n m : Nat} {q : Quantifier} {atom : Node} {code : Code} :
      Emits isBackward atom n code m →
      Emits isBackward (.quant q atom) n (emitQuantifier q code n m) m

variable {folding flags}

theorem bind_ok {ε α β : Type} {x : Except ε α} {f : α → Except ε β} {b : β}
    (bound : (x >>= f) = .ok b) : ∃ a, x = .ok a ∧ f a = .ok b := by
  cases x with
  | error e => cases bound
  | ok a => exact ⟨a, rfl, bound⟩

theorem emits_of_ok {isBackward : Bool} {node : Node} {n m : Nat} {code : Code}
    (emitted : emit folding flags isBackward node n = .ok (code, m)) :
    Emits folding flags isBackward node n code m := by
  induction node generalizing isBackward n m code with
  | empty =>
      cases emitted
      exact .empty
  | lineStart =>
      cases emitted
      exact .lineStart
  | lineEnd =>
      cases emitted
      exact .lineEnd
  | wordBoundary negated =>
      cases emitted
      exact .wordBoundary
  | char c =>
      cases emitted
      exact .char
  | dot =>
      cases emitted
      exact .dot
  | charSet cr =>
      obtain ⟨range, ranged, rest⟩ := bind_ok emitted
      cases rest
      exact .charSet ranged
  | charClass cls =>
      obtain ⟨range, ranged, rest⟩ := bind_ok emitted
      cases rest
      exact .charClass ranged
  | backReference capture =>
      cases emitted
      exact .backReference
  | capture body ih =>
      simp only [emit] at emitted
      split at emitted
      · cases emitted
      · next room =>
          obtain ⟨⟨inner, count⟩, ranged, rest⟩ := bind_ok emitted
          cases rest
          exact .capture (by omega) (ih ranged)
  | lookaround isNeg ahead body ih =>
      obtain ⟨⟨inner, count⟩, ranged, rest⟩ := bind_ok emitted
      cases rest
      exact .lookaround (ih ranged)
  | seq first rest ihFirst ihRest =>
      obtain ⟨⟨a, middle⟩, early, later⟩ := bind_ok emitted
      obtain ⟨⟨b, last⟩, late, final⟩ := bind_ok later
      cases isBackward with
      | false =>
          cases final
          exact .seqForward (ihFirst early) (ihRest late)
      | true =>
          cases final
          exact .seqBackward (ihFirst early) (ihRest late)
  | alt left right ihLeft ihRight =>
      obtain ⟨⟨a, middle⟩, early, later⟩ := bind_ok emitted
      obtain ⟨⟨b, last⟩, late, final⟩ := bind_ok later
      cases final
      exact .alt (ihLeft early) (ihRight late)
  | quant q atom ih =>
      obtain ⟨⟨inner, count⟩, ranged, rest⟩ := bind_ok emitted
      cases rest
      exact .quant (ih ranged)

end Emission

section Emitted

variable {ctx : Context} {isBackward : Bool} {node : Node} {n m : Nat} {code : Code}

theorem Emits.count {folding : CaseFolding} {flags : Flags}
    (emits : Emits folding flags isBackward node n code m) : m = n + node.captures := by
  induction emits with
  | capture _ _ ih =>
      simp only [Node.captures]
      omega
  | lookaround _ ih | quant _ ih => exact ih
  | seqForward _ _ first second | seqBackward _ _ first second | alt _ _ first second =>
      simp only [Node.captures]
      omega
  | _ => rfl

theorem Emits.balanced (emits : Emits ctx.folding ctx.flags isBackward node n code m) :
    Balanced code := by
  induction emits with
  | empty => exact .nil
  | lineStart | lineEnd => exact .single fun _ => rfl
  | @wordBoundary _ _ negated => cases negated <;> exact .single fun _ => rfl
  | @char isBackward _ c =>
      have reads : Reads ctx _ _ := reads_emitChar c
      exact .around reads isBackward
  | @dot isBackward =>
      have reads : Reads ctx _ _ := reads_dot
      exact .around reads isBackward
  | charSet emitted | charClass emitted =>
      obtain ⟨i, rfl, reads⟩ := @emitRange_reads ctx _ _ emitted
      exact .around reads _
  | @backReference isBackward => cases isBackward <;> exact .single fun _ => rfl
  | @capture isBackward _ _ _ _ _ _ ih =>
      cases isBackward <;>
        exact ((Balanced.single fun _ => rfl).append ih).append (.single fun _ => rfl)
  | @lookaround _ isNeg _ _ _ _ _ _ ih =>
      intro depth
      cases isNeg <;> exact (ih.append fun _ => rfl) depth
  | seqForward _ _ first second => exact first.append second
  | seqBackward _ _ first second => exact second.append first
  | @alt _ _ _ _ _ _ _ b _ _ first second =>
      have rest : Balanced (.goto (codeSize b) :: b) := fun depth => second depth
      exact fun depth => (first.append rest) depth
  | quant _ ih => exact ih.emitQuantifier _ _ _

theorem Emits.captures_of_simple (emits : Emits ctx.folding ctx.flags isBackward node n code m)
    {count : Nat} (simple : isSimpleQuantifier code = some count) : node.captures = 0 := by
  have known := (isSimpleQuantifier_plain simple).2
  have plain := (isSimpleQuantifier_plain simple).1
  clear simple
  induction emits with
  | @capture isBackward n _ _ _ _ _ _ =>
      have saves := known (if isBackward then .saveEnd n else .saveStart n) (by simp)
      cases isBackward <;> exact absurd rfl saves
  | @lookaround _ isNeg _ _ _ _ _ _ _ =>
      have unknown := plain _ (List.mem_cons_self ..)
      cases isNeg <;> exact absurd rfl unknown
  | seqForward _ _ first second =>
      have early := first (fun i member => known i (List.mem_append_left _ member)) plain.left
      have late := second (fun i member => known i (List.mem_append_right _ member)) plain.right
      simp only [Node.captures, early, late]
  | seqBackward _ _ first second =>
      have early := first (fun i member => known i (List.mem_append_right _ member)) plain.right
      have late := second (fun i member => known i (List.mem_append_left _ member)) plain.left
      simp only [Node.captures, early, late]
  | alt => exact absurd rfl (plain _ (List.mem_cons_self ..))
  | @quant _ n m q atom code emits ih =>
      rcases emitQuantifier_plain plain with ⟨_, _, same⟩ | ⟨_, _, same⟩
      · rw [same] at known plain
        exact ih known plain
      · rw [same] at known
        by_contra some
        have differs : n ≠ m := by
          have counted := emits.count
          simp only [Node.captures] at some
          omega
        simp only [saveResetCode, if_pos differs] at known
        exact known _ (List.mem_singleton_self _) rfl
  | _ => rfl

theorem Onward.advance {x y z : Place} (first : Onward isBackward x y)
    (second : Onward isBackward y z) (moved : y.cptr ≠ x.cptr ∨ z.cptr ≠ y.cptr) :
    z.cptr ≠ x.cptr := by
  cases isBackward with
  | false =>
      simp only [Onward, Bool.false_eq_true, if_false] at first second
      omega
  | true =>
      simp only [Onward, if_true] at first second
      omega

theorem Advances.append {a b : Code} (advances : Advances (a ++ b)) : Advances a ∨ Advances b := by
  obtain ⟨i, member, here⟩ := advances
  rcases List.mem_append.mp member with early | late
  · exact .inl ⟨i, early, here⟩
  · exact .inr ⟨i, late, here⟩

theorem not_advances_single {i : Instr} (kind : i.advanceEffect ≠ .advances) : ¬ Advances [i] := by
  rintro ⟨j, member, here⟩
  rw [List.mem_singleton.mp member] at here
  exact kind here

theorem readChar_advances {subject : Subject} (accepts : Nat → Bool) (x : Place) :
    ∀ y ∈ readChar subject isBackward accepts x, y.cptr ≠ x.cptr := by
  intro y member
  simp only [readChar] at member
  split at member
  · simp at member
  · next c cptr read =>
      split at member
      · rw [List.mem_singleton.mp member]
        cases isBackward with
        | false => exact Nat.ne_of_gt (Input.getChar_bounds read).1
        | true => exact Nat.ne_of_lt (Input.getPrevChar_bounds read).1
      · simp at member

theorem Emits.advances (emits : Emits ctx.folding ctx.flags isBackward node n code m)
    (plain : Plain code) (advances : Advances code) (captures : Nat) (x : Place)
    (valid : Valid ctx x) :
    ∀ y ∈ sem ctx.toSubject node isBackward captures x, y.cptr ≠ x.cptr := by
  have reached : ∀ {node isBackward captures} {x y : Place}, Valid ctx x →
      y ∈ sem ctx.toSubject node isBackward captures x →
      Valid ctx y ∧ Onward isBackward x y :=
    fun valid member => sem_reaches _ _ _ _ _ member valid
  induction emits generalizing captures x with
  | empty => exact absurd advances (by rintro ⟨i, member, _⟩; simp at member)
  | lineStart | lineEnd => exact absurd advances (not_advances_single (by decide))
  | @wordBoundary _ _ negated =>
      cases negated <;> exact absurd advances (not_advances_single (by decide))
  | char | dot | charSet | charClass => exact readChar_advances _ x
  | @backReference isBackward =>
      cases isBackward <;> exact absurd advances (not_advances_single (by simp [Instr.advanceEffect]))
  | @capture isBackward n _ _ code _ _ ih =>
      intro z member
      obtain ⟨y, inner, rfl⟩ := List.mem_map.mp member
      have body : Advances code := by
        rcases advances.append with front | back
        · rcases front.append with saves | body
          · cases isBackward <;>
              exact absurd saves (not_advances_single (by simp [Instr.advanceEffect]))
          · exact body
        · cases isBackward <;>
            exact absurd back (not_advances_single (by simp [Instr.advanceEffect]))
      exact ih plain.left.right body (captures + 1) _ (valid.mark _) y inner
  | @lookaround _ isNeg _ _ _ _ _ _ _ =>
      have unknown := plain _ (List.mem_cons_self ..)
      cases isNeg <;> exact absurd rfl unknown
  | seqForward _ _ first second =>
      intro z member
      obtain ⟨y, early, late⟩ := List.mem_flatMap.mp member
      have middle := reached valid early
      apply middle.2.advance (reached middle.1 late).2
      rcases advances.append with a | b
      · exact .inl (first plain.left a captures x valid y early)
      · exact .inr (second plain.right b _ y middle.1 z late)
  | seqBackward _ _ first second =>
      intro z member
      obtain ⟨y, early, late⟩ := List.mem_flatMap.mp member
      have middle := reached valid early
      apply middle.2.advance (reached middle.1 late).2
      rcases advances.append with b | a
      · exact .inl (second plain.left b _ x valid y early)
      · exact .inr (first plain.right a captures y middle.1 z late)
  | alt => exact absurd rfl (plain _ (List.mem_cons_self ..))
  | @quant isBackward n m q atom code emits ih =>
      rcases emitQuantifier_plain plain with ⟨least, most, same⟩ | ⟨_, _, same⟩
      · rw [same] at plain advances
        have once := ih plain advances captures x valid
        simpa [sem, quantified, Quantifier.rounds, least, most, int32Max, Choices.exactly,
          Choices.upTo] using once
      · rw [same] at advances
        simp only [saveResetCode] at advances
        split at advances
        · exact absurd advances (not_advances_single (by simp [Instr.advanceEffect]))
        · exact absurd advances (by rintro ⟨i, member, _⟩; simp at member)

theorem implements_save (offset : Bool) (inside : n < ctx.captureCount) :
    Implements ctx [if offset then .saveEnd n else .saveStart n]
      fun x => [x.mark (2 * n + offset.toNat)] := by
  apply Implements.single
  intro x _ pc stack
  cases offset <;> exact runs_save inside

theorem balanced_save (offset : Bool) (n : Nat) :
    Balanced [if offset then .saveEnd n else .saveStart n] := by
  cases offset <;> exact .single fun _ => rfl

theorem Implements.capture {f : Place → List Place} (coded : Implements ctx code f)
    (balanced : Balanced code) (keeps : Keeps ctx f) (isBackward : Bool)
    (inside : n < ctx.captureCount) :
    Implements ctx
      ([if isBackward then .saveEnd n else .saveStart n] ++ code ++
        [if isBackward then .saveStart n else .saveEnd n])
      (fun x => (f (x.mark (2 * n + isBackward.toNat))).map fun y =>
        y.mark (2 * n + (!isBackward).toNat)) := by
  have marked : ∀ x, Valid ctx x → ∀ y ∈ [x.mark (2 * n + isBackward.toNat)], Valid ctx y := by
    intro x valid y member
    rw [List.mem_singleton.mp member]
    exact valid.mark _
  have front := (implements_save isBackward inside).append coded (balanced_save isBackward n) marked
  have kept : ∀ x, Valid ctx x →
      ∀ y ∈ [x.mark (2 * n + isBackward.toNat)].flatMap f, Valid ctx y := by
    intro x valid y member
    obtain ⟨z, first, later⟩ := List.mem_flatMap.mp member
    exact keeps z (marked x valid z first) y later
  have whole := front.append (implements_save (!isBackward) inside)
    ((balanced_save isBackward n).append balanced) kept
  cases isBackward with
  | false => exact whole.congr fun x _ => by simp [List.map_eq_flatMap]
  | true => exact whole.congr fun x _ => by simp [List.map_eq_flatMap]

theorem Implements.alt {a b : Code} {f g : Place → List Place} (left : Implements ctx a f)
    (right : Implements ctx b g) (balanced : Balanced a) :
    Implements ctx (.splitNextFirst (codeSize a + 5) :: (a ++ .goto (codeSize b) :: b))
      (fun x => f x ++ g x) := by
  intro pc exit stack x found placed address fits valid onward
  have rest : CodeAt Instr.size ctx.code (pc + 5) (a ++ .goto (codeSize b) :: b) := placed.tail rfl
  have jump : CodeAt Instr.size ctx.code (pc + 5 + codeSize a) (.goto (codeSize b) :: b) :=
    at_right rest rfl
  have other : CodeAt Instr.size ctx.code (pc + 5 + (codeSize a + 5)) b :=
    jump.tail (by simp only [Instr.size]; omega)
  have size : exit = pc + 5 + codeSize a + 5 + codeSize b := by
    simp only [codeSize_cons, codeSize_append, Instr.size] at address
    omega
  simp only [peak, peak_append, balanced _, Instr.stackAfter] at fits
  rw [List.flatMap_append]
  apply Explores.split (effect_at placed x stack)
  · apply left (pc + 5) _ stack x _ rest.left rfl (by omega) valid
    intro y member
    exact explores_goto jump size (onward y (List.mem_append_left _ member))
  · apply right _ exit stack x _ other (by omega) (by omega) valid
    intro y member
    exact onward y (List.mem_append_right _ member)

theorem Implements.lookaround {f : Place → List Place} (coded : Implements ctx code f)
    (isNeg : Bool) :
    Implements ctx
      ((if isNeg then Instr.negativeLookahead else .lookahead) (codeSize code + 1) ::
        (code ++ [.match_]))
      (fun x =>
        match (f x).head?, isNeg with
        | some y, false => [{ x with capture := y.capture }]
        | none, true => [x]
        | _, _ => []) := by
  intro pc exit stack x found placed address fits valid onward
  have body : CodeAt Instr.size ctx.code (pc + 5) (code ++ [.match_]) :=
    placed.tail (by cases isNeg <;> rfl)
  have ending : CodeAt Instr.size ctx.code (pc + 5 + codeSize code) [.match_] := at_right body rfl
  have size : exit = pc + 5 + (codeSize code + 1) := by
    cases isNeg <;> simp [Instr.size] at address <;> omega
  have here : effect ctx (x.thread pc stack) =
      .lookahead isNeg (x.thread (pc + 5) stack) (x.thread exit stack) := by
    rw [effect_at placed, size]
    cases isNeg <;> rfl
  have deep : peak stack.length code ≤ ctx.stackSize := by
    cases isNeg <;> simp [peak, peak_append, Instr.stackAfter] at fits <;> omega
  have inner : Explores ctx (x.thread (pc + 5) stack)
      ((f x).flatMap fun y => [y.thread (pc + 5 + codeSize code) stack]) := by
    apply coded (pc + 5) _ stack x _ body.left rfl deep valid
    intro y _
    exact .matched (effect_at ending y stack)
  cases places : f x with
  | nil =>
      rw [places] at inner
      cases isNeg with
      | false =>
          simp only [places, List.head?_nil, List.flatMap_nil]
          exact .notAhead here inner
      | true =>
          simp only [places, List.head?_nil, List.flatMap_singleton] at onward ⊢
          exact .absent here inner (onward x (List.mem_singleton_self x))
  | cons y rest =>
      rw [places] at inner
      cases isNeg with
      | false =>
          simp only [places, List.head?_cons, List.flatMap_singleton] at onward ⊢
          exact .ahead here inner (onward _ (List.mem_singleton_self _))
      | true =>
          simp only [places, List.head?_cons, List.flatMap_nil]
          exact .refused here inner

theorem sem_keeps (node : Node) (isBackward : Bool) (n : Nat) :
    Keeps ctx (sem ctx.toSubject node isBackward n) :=
  fun x valid y member => (sem_reaches node isBackward n x y member valid).1

theorem Emits.implements (emits : Emits ctx.folding ctx.flags isBackward node n code m)
    (inside : m ≤ ctx.captureCount) :
    Implements ctx code (sem ctx.toSubject node isBackward n) := by
  induction emits with
  | empty => exact .nil
  | lineStart => exact .single fun x valid pc stack => runs_lineStart valid
  | lineEnd => exact .single fun x valid pc stack => runs_lineEnd valid
  | @wordBoundary _ _ negated =>
      cases negated <;> exact .single fun x valid pc stack => runs_wordBoundary valid _
  | char => exact .around (reads_emitChar _) _
  | dot => exact .around reads_dot _
  | charSet emitted | charClass emitted =>
      obtain ⟨i, rfl, reads⟩ := @emitRange_reads ctx _ _ emitted
      exact .around reads _
  | @backReference isBackward =>
      cases isBackward <;> exact .single fun x valid pc stack => runs_backReference valid _ _
  | @capture isBackward n m body code room emits ih =>
      have count := emits.count
      exact (ih inside).capture emits.balanced (sem_keeps body isBackward _) isBackward (by omega)
  | lookaround _ ih => exact (ih inside).lookaround _
  | seqForward first second ihFirst ihSecond =>
      have early := first.count
      have late := second.count
      subst early
      exact (ihFirst (by omega)).append (ihSecond inside) first.balanced (sem_keeps _ _ _)
  | seqBackward first second ihFirst ihSecond =>
      have early := first.count
      have late := second.count
      subst early
      exact (ihSecond inside).append (ihFirst (by omega)) second.balanced (sem_keeps _ _ _)
  | alt first second ihFirst ihSecond =>
      have early := first.count
      have late := second.count
      subst early
      exact (ihFirst (by omega)).alt (ihSecond inside) first.balanced
  | @quant isBackward n m q atom code emits ih =>
      have count := emits.count
      subst count
      have advances : needCheckAdvance true code = false → ∀ x, Valid ctx x →
          ∀ y ∈ sem ctx.toSubject atom isBackward n x, y.cptr ≠ x.cptr := by
        intro unneeded x valid
        obtain ⟨plain, reads⟩ := needCheckAdvance_false unneeded
        exact emits.advances plain (reads.resolve_left (by simp)) n x valid
      exact (ih inside).emitQuantifier emits.balanced (sem_reaches atom isBackward n) advances
        (fun _ simple => emits.captures_of_simple simple) q inside

end Emitted

section Whole

variable {folding : CaseFolding} {flags : Flags} {pattern : Node} {program : Program}

def allMatches (subject : Subject) (pattern : Node) (x : Place) : List Place :=
  if subject.flags.isSticky then sem subject (.capture pattern) false 0 x
  else
    (Choices.upTo (readChar subject false fun _ => true) false (subject.input.cbufEnd + 1) x).flatMap
      (sem subject (.capture pattern) false 0)

def startPlace (program : Program) (cindex : Nat) : Place :=
  ⟨cindex, List.replicate (2 * program.captureCount) none⟩

theorem lreCompile_ok (compiled : lreCompile folding flags pattern = .ok program) :
    program.flags = flags ∧ peak 0 program.code ≤ program.stackSize ∧
      ∃ code, Emits folding flags false (.capture pattern) 0 code program.captureCount ∧
        program.code = (if flags.isSticky then [] else searchLoop) ++ code ++ [.match_] := by
  obtain ⟨⟨body, count⟩, emitted, rest⟩ := bind_ok compiled
  simp only at rest
  split at rest
  · cases rest
  · next size computed =>
      cases rest
      refine ⟨rfl, (computeStackSize_bound (le_refl 0) computed).2,
        [.saveStart 0] ++ body ++ [.saveEnd 0], .capture (by decide) (emits_of_ok emitted), by simp⟩

theorem searchLoop_eq :
    searchLoop = emitGoto .goto 0 (splitOp false (codeSize [.any] + 5) :: [.any]) := rfl

theorem readAny_descends (ctx : Context) :
    Descends ctx (fun x => ctx.input.cbufEnd - x.cptr)
      (readChar ctx.toSubject false fun _ => true) := by
  intro x valid y member
  have reached : Reaches ctx.toSubject ctx.captureCount false x y := readChar_reaches _ x y member
  have reached := reached valid
  have moved := readChar_advances _ x y member
  have inside := reached.1.inside
  have way := reached.2
  simp only [Onward, Bool.false_eq_true, if_false] at way
  refine ⟨reached.1, ?_⟩
  simp only
  omega

theorem implements_searchLoop (ctx : Context) :
    Implements ctx searchLoop
      (Choices.upTo (readChar ctx.toSubject false fun _ => true) false (ctx.input.cbufEnd + 1)) := by
  have reads : Reads ctx .any fun _ => true := ⟨rfl, fun _ => rfl, fun _ _ _ _ => rfl⟩
  rw [searchLoop_eq]
  exact (Implements.reads reads).upTo_star (readAny_descends ctx) false fun x _ => by omega

theorem implements_program (ctx : Context) {code : Code} {count : Nat}
    (emits : Emits ctx.folding ctx.flags false (.capture pattern) 0 code count)
    (inside : count ≤ ctx.captureCount) :
    Implements ctx ((if ctx.flags.isSticky then [] else searchLoop) ++ code)
      (allMatches ctx.toSubject pattern) := by
  have body := emits.implements inside
  cases sticky : ctx.flags.isSticky with
  | true => exact body.congr fun x _ => by simp [allMatches, sticky]
  | false =>
      have whole := (implements_searchLoop ctx).append body (fun _ => rfl) fun x valid =>
        Choices.upTo_holds (fun x valid y member => (readAny_descends ctx x valid y member).1) false _
          valid
      exact whole.congr fun x _ => by simp [allMatches, sticky]

theorem startPlace_valid (units : List UInt16) (isWide : Bool) {cindex : Nat}
    (inside : cindex ≤ units.length)
    (aligned : (execContext folding program units isWide).input.Aligned cindex) :
    Valid (execContext folding program units isWide) (startPlace program cindex) := by
  refine ⟨inside, aligned, by simp [startPlace, execContext], ?_⟩
  intro p member
  cases List.eq_of_mem_replicate member

theorem explores_program (compiled : lreCompile folding flags pattern = .ok program)
    (units : List UInt16) (isWide : Bool) {cindex : Nat} (inside : cindex ≤ units.length)
    (aligned : (execContext folding program units isWide).input.Aligned cindex) :
    ∃ exit, Explores (execContext folding program units isWide) (startThread program cindex)
      ((allMatches (execContext folding program units isWide).toSubject pattern
        (startPlace program cindex)).map fun y => y.thread exit []) := by
  obtain ⟨rfl, fits, code, emits, layout⟩ := lreCompile_ok compiled
  have placed : CodeAt Instr.size program.code 0
      ((if program.flags.isSticky then [] else searchLoop) ++ code ++ [.match_]) :=
    ⟨[], [], by simp [layout], rfl⟩
  have deep : peak 0 ((if program.flags.isSticky then [] else searchLoop) ++ code) ≤
      program.stackSize := by
    rw [layout, peak_append] at fits
    exact (le_max_left _ _).trans fits
  have ending : CodeAt Instr.size (execContext folding program units isWide).code
      (0 + codeSize ((if program.flags.isSticky then [] else searchLoop) ++ code)) [.match_] :=
    at_right placed rfl
  refine ⟨0 + codeSize ((if program.flags.isSticky then [] else searchLoop) ++ code), ?_⟩
  rw [List.map_eq_flatMap]
  apply implements_program (execContext folding program units isWide) emits (le_refl _) 0 _ []
    (startPlace program cindex) _ placed.left rfl deep (startPlace_valid units isWide inside aligned)
  intro y _
  exact .matched (effect_at ending y [])

theorem runFor_stays {ctx : Context} {c d : Config} {fuel : Nat} (reached : runFor ctx fuel c = d)
    (final : machineStep ctx d = none) {more : Nat} (later : fuel ≤ more) :
    runFor ctx more c = d := by
  induction fuel generalizing c more with
  | zero =>
      have here : machineStep ctx c = none := by rwa [← reached] at final
      cases more with
      | zero => exact reached
      | succ more =>
          rw [← reached]
          simp [runFor, here]
  | succ fuel ih =>
      obtain ⟨more, rfl⟩ : ∃ n, more = n + 1 := ⟨more - 1, by omega⟩
      simp only [runFor] at reached ⊢
      split at reached
      · exact reached
      · exact ih reached (by omega)

def firstMatch (subject : Subject) (pattern : Node) (program : Program) (cindex : Nat) :
    Option Place :=
  (allMatches subject pattern (startPlace program cindex)).head?

theorem lreExec_done (compiled : lreCompile folding flags pattern = .ok program)
    (units : List UInt16) (isWide : Bool) {cindex : Nat} (inside : cindex ≤ units.length)
    (aligned : (execContext folding program units isWide).input.Aligned cindex) :
    ∃ fuel capture, lreExec folding program units isWide cindex fuel =
        .done (firstMatch (execContext folding program units isWide).toSubject pattern program
          cindex).isSome capture ∧
      ∀ y ∈ firstMatch (execContext folding program units isWide).toSubject pattern program cindex,
        y.capture = capture := by
  obtain ⟨exit, explores⟩ := explores_program compiled units isWide inside aligned
  have settles := explores.settles []
  simp only [firstMatch]
  cases places : allMatches (execContext folding program units isWide).toSubject pattern
      (startPlace program cindex) with
  | nil =>
      rw [places] at settles
      obtain ⟨capture, steps⟩ := settles
      have done : machineStep (execContext folding program units isWide)
          (.recurse false capture []) = some (.done false capture) := rfl
      obtain ⟨fuel, reached⟩ := Steps.run (steps.trans (Steps.one done))
      exact ⟨fuel, capture, reached, by simp⟩
  | cons y rest =>
      rw [places] at settles
      have done : machineStep (execContext folding program units isWide)
          (.recurse true y.capture []) = some (.done true y.capture) := rfl
      have steps : Steps (execContext folding program units isWide)
          (.run (startThread program cindex) []) (.recurse true y.capture []) := settles
      obtain ⟨fuel, reached⟩ := Steps.run (steps.trans (Steps.one done))
      exact ⟨fuel, y.capture, reached, by simp⟩

theorem firstMatch_of_done (compiled : lreCompile folding flags pattern = .ok program)
    (units : List UInt16) (isWide : Bool) {cindex : Nat} (inside : cindex ≤ units.length)
    (aligned : (execContext folding program units isWide).input.Aligned cindex) {fuel : Nat}
    {ret : Bool} {capture : Captures}
    (done : lreExec folding program units isWide cindex fuel = .done ret capture) :
    ret = (firstMatch (execContext folding program units isWide).toSubject pattern program
        cindex).isSome ∧
      ∀ y ∈ firstMatch (execContext folding program units isWide).toSubject pattern program cindex,
        y.capture = capture := by
  obtain ⟨enough, found, reached, captured⟩ := lreExec_done compiled units isWide inside aligned
  have first := runFor_stays reached rfl (le_max_left enough fuel)
  have second := runFor_stays done rfl (le_max_right enough fuel)
  rw [first] at second
  cases second
  exact ⟨rfl, captured⟩

/-- From a boundary between characters `lre_exec` ends: it returns 1 with the captures of the first
match, and 0 if there is none. -/
theorem lreExec_finds_first (compiled : lreCompile folding flags pattern = .ok program)
    (units : List UInt16) (isWide : Bool) {cindex : Nat} (inside : cindex ≤ units.length)
    (aligned : (execContext folding program units isWide).input.Aligned cindex) :
    ∃ fuel capture, (∀ more, fuel ≤ more → lreExec folding program units isWide cindex more =
        .done (firstMatch (execContext folding program units isWide).toSubject pattern program
          cindex).isSome capture) ∧
      ∀ y ∈ firstMatch (execContext folding program units isWide).toSubject pattern program cindex,
        y.capture = capture := by
  obtain ⟨fuel, capture, done, captured⟩ := lreExec_done compiled units isWide inside aligned
  exact ⟨fuel, capture, fun more later => runFor_stays done rfl later, captured⟩

def keepCase : CaseFolding where
  canonicalize := fun _ c => c
  canonicalizeRange := fun _ cr => cr
  bounded := fun _ _ bounded => bounded

def unicodeFlags : Flags := ⟨false, false, false, true, false⟩

def lettersOrPairs : Node :=
  .seq (.quant ⟨1, int32Max, true, by decide, by decide⟩ (.capture (.alt (.char 97) (.char 0x1d306))))
    (.char 98)

def pairsProgram : Program where
  flags := unicodeFlags
  captureCount := 2
  stackSize := 1
  code := [.splitGotoFirst 6, .any, .goto (-11), .saveStart 0, .saveStart 1, .splitNextFirst 7,
    .char8 97, .goto 5, .char32 0x1d306, .saveEnd 1, .splitNextFirst 28, .pushCharPos, .saveStart 1,
    .splitNextFirst 7, .char8 97, .goto 5, .char32 0x1d306, .saveEnd 1, .checkAdvance, .goto (-33),
    .char8 98, .saveEnd 0, .match_]

theorem lettersOrPairs_compiled :
    lreCompile keepCase unicodeFlags lettersOrPairs = .ok pairsProgram := rfl

def pairUnits : List UInt16 := [0xd834, 0xdf06, 97, 0xd834, 0xdf06, 98]

theorem lreExec_finds_first_pairs :
    ∃ fuel capture, (∀ more, fuel ≤ more → lreExec keepCase pairsProgram pairUnits true 2 more =
        .done (firstMatch (execContext keepCase pairsProgram pairUnits true).toSubject lettersOrPairs
          pairsProgram 2).isSome capture) ∧
      ∀ y ∈ firstMatch (execContext keepCase pairsProgram pairUnits true).toSubject lettersOrPairs
        pairsProgram 2, y.capture = capture :=
  lreExec_finds_first lettersOrPairs_compiled pairUnits true (by decide) (.inr rfl)

/-- No run of a compiled pattern accesses anything outside of the code, the subject, the captures or
the stack. -/
theorem lreExec_never_faults (compiled : lreCompile folding flags pattern = .ok program)
    (units : List UInt16) (isWide : Bool) {cindex : Nat} (inside : cindex ≤ units.length)
    (aligned : (execContext folding program units isWide).input.Aligned cindex) (fuel : Nat) :
    lreExec folding program units isWide cindex fuel ≠ .fault := by
  obtain ⟨enough, capture, done, _⟩ := lreExec_done compiled units isWide inside aligned
  intro fault
  have first := runFor_stays done rfl (le_max_left enough fuel)
  have second := runFor_stays fault rfl (le_max_right enough fuel)
  rw [first] at second
  cases second

theorem lreExec_never_faults_pairs :
    lreExec keepCase pairsProgram pairUnits true 2 100 ≠ .fault :=
  lreExec_never_faults lettersOrPairs_compiled pairUnits true (by decide) (.inr rfl) 100

end Whole

end BreezeJs.Regexp
