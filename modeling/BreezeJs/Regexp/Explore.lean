import BreezeJs.Regexp.Exec

set_option autoImplicit false

namespace BreezeJs.Regexp

inductive Straight (ctx : Context) : Thread → Bool → Thread → Prop where
  | matched {t : Thread} : effect ctx t = .matched → Straight ctx t true t
  | failed {t : Thread} : effect ctx t = .noMatch → Straight ctx t false t
  | step {t u v : Thread} {ret : Bool} :
      effect ctx t = .step u → Straight ctx u ret v → Straight ctx t ret v

def Quant.round (quant : Quant) (t : Thread) : Quant :=
  { quant with q := quant.q + 1, cptr := t.cptr }

def Quant.full (quant : Quant) : Prop :=
  quant.quantMax ≤ quant.q ∧ quant.quantMax ≠ int32Max

-- The loop of `simple_greedy_quant`, with what it leaves.
inductive Rounds (ctx : Context) : Quant → Thread → Quant → Thread → Prop where
  | failed {quant : Quant} {t u : Thread} : Straight ctx t false u → Rounds ctx quant t quant u
  | full {quant : Quant} {t u : Thread} : Straight ctx t true u → (quant.round u).full →
      Rounds ctx quant t (quant.round u) u
  | more {quant last : Quant} {t u v : Thread} : Straight ctx t true u →
      ¬ (quant.round u).full → Rounds ctx (quant.round u) { u with pc := quant.body } last v →
      Rounds ctx quant t last v

inductive Explores (ctx : Context) : Thread → List Thread → Prop where
  | step {t u : Thread} {found : List Thread} :
      effect ctx t = .step u → Explores ctx u found → Explores ctx t found
  | noMatch {t : Thread} : effect ctx t = .noMatch → Explores ctx t []
  | matched {t : Thread} : effect ctx t = .matched → Explores ctx t [t]
  | split {t first second : Thread} {found more : List Thread} :
      effect ctx t = .split first second → Explores ctx first found → Explores ctx second more →
      Explores ctx t (found ++ more)
  | ahead {t body exit hit : Thread} {rest found : List Thread} :
      effect ctx t = .lookahead false body exit → Explores ctx body (hit :: rest) →
      Explores ctx { exit with capture := hit.capture } found → Explores ctx t found
  | notAhead {t body exit : Thread} :
      effect ctx t = .lookahead false body exit → Explores ctx body [] → Explores ctx t []
  | refused {t body exit hit : Thread} {rest : List Thread} :
      effect ctx t = .lookahead true body exit → Explores ctx body (hit :: rest) →
      Explores ctx t []
  | absent {t body exit : Thread} {found : List Thread} :
      effect ctx t = .lookahead true body exit → Explores ctx body [] → Explores ctx exit found →
      Explores ctx t found
  | few {t u : Thread} {body exit : Int} {quantMin quantMax charCount : Nat} {last : Quant} :
      effect ctx t = .greedyQuant body exit quantMin quantMax charCount →
      Rounds ctx ⟨body, exit, quantMin, quantMax, charCount, 0, t.cptr⟩ { t with pc := body } last u →
      last.q < quantMin → Explores ctx t []
  | greedy {t u : Thread} {body exit : Int} {quantMin quantMax charCount : Nat} {last : Quant}
      {positions : Nat → Nat} {found : Nat → List Thread} :
      effect ctx t = .greedyQuant body exit quantMin quantMax charCount →
      Rounds ctx ⟨body, exit, quantMin, quantMax, charCount, 0, t.cptr⟩ { t with pc := body } last u →
      quantMin ≤ last.q → positions 0 = last.cptr →
      (∀ i < last.q - quantMin,
        goBackward ctx.input charCount (positions i) = some (positions (i + 1))) →
      (∀ i ≤ last.q - quantMin,
        Explores ctx { u with pc := exit, cptr := positions i } (found i)) →
      Explores ctx t ((List.range (last.q - quantMin + 1)).flatMap found)

def Settles (ctx : Context) (c : Config) (states : List ExecState) : List Thread → Prop
  | [] => ∃ capture, Steps ctx c (.recurse false capture states)
  | hit :: _ => Steps ctx c (.recurse true hit.capture states)

section Machine

variable {ctx : Context} {c d : Config} {states : List ExecState} {found more : List Thread}

theorem Settles.later (first : Steps ctx c d) (settles : Settles ctx d states found) :
    Settles ctx c states found := by
  cases found with
  | nil =>
      obtain ⟨capture, steps⟩ := settles
      exact ⟨capture, first.trans steps⟩
  | cons hit rest => exact first.trans settles

theorem Settles.next (taken : machineStep ctx c = some d) (settles : Settles ctx d states found) :
    Settles ctx c states found :=
  settles.later (Steps.one taken)

theorem Settles.append {state : ExecState} (settles : Settles ctx c (state :: states) found)
    (passes : ∀ capture, resume ctx true capture state states = .recurse true capture states)
    (resumes : ∀ capture, resume ctx false capture state states = d)
    (later : Settles ctx d states more) : Settles ctx c states (found ++ more) := by
  cases found with
  | nil =>
      obtain ⟨capture, steps⟩ := settles
      have taken : machineStep ctx (.recurse false capture (state :: states)) = some d := by
        simp [machineStep, resumes]
      exact later.later (steps.trans (Steps.one taken))
  | cons hit rest =>
      have taken : machineStep ctx (.recurse true hit.capture (state :: states)) =
          some (.recurse true hit.capture states) := by
        simp [machineStep, passes]
      exact Relation.ReflTransGen.trans settles (Steps.one taken)

theorem Straight.steps {t u : Thread} {ret : Bool} (straight : Straight ctx t ret u)
    (quant : Quant) (states : List ExecState) :
    Steps ctx (.quant quant t states) (.quant quant u states) ∧
      effect ctx u = if ret then .matched else .noMatch := by
  induction straight with
  | matched here => exact ⟨.refl, here⟩
  | failed here => exact ⟨.refl, here⟩
  | @step t u v ret here _ ih =>
      have taken : machineStep ctx (.quant quant t states) = some (.quant quant u states) := by
        simp only [machineStep, here]
      exact ⟨Steps.next taken ih.1, ih.2⟩

theorem Rounds.steps {quant last : Quant} {t u : Thread} (rounds : Rounds ctx quant t last u)
    (states : List ExecState) :
    Steps ctx (.quant quant t states) (finishQuant last u states) := by
  induction rounds with
  | @failed quant t u straight =>
      have run := straight.steps quant states
      apply run.1.trans
      apply Steps.one
      simp only [machineStep, run.2, Bool.false_eq_true, if_false]
  | @full quant t u straight full =>
      have run := straight.steps quant states
      apply run.1.trans
      apply Steps.one
      simp only [machineStep, run.2, if_true]
      exact if_pos full
  | @more quant last t u v straight more _ ih =>
      have run := straight.steps quant states
      apply run.1.trans
      refine Steps.next ?_ ih
      simp only [machineStep, run.2, if_true]
      exact if_neg more

theorem settles_quant {t : Thread} {exit : Int} {charCount : Nat} {positions : Nat → Nat}
    {results : Nat → List Thread} (last : Nat)
    (back : ∀ i < last, goBackward ctx.input charCount (positions i) = some (positions (i + 1)))
    (explored : ∀ i ≤ last, ∀ states,
      Settles ctx (.run { t with pc := exit, cptr := positions i } states) states (results i))
    (left i : Nat) (here : i + left = last) :
    Settles ctx
      (.run { t with pc := exit, cptr := positions i }
        (if left = 0 then states
        else ⟨.greedyQuant exit charCount left, { t with pc := exit, cptr := positions i }⟩ :: states))
      states ((List.range' i (left + 1)).flatMap results) := by
  induction left generalizing i with
  | zero => simpa using explored i (by omega) states
  | succ left ih =>
      have first := explored i (by omega)
        (⟨.greedyQuant exit charCount (left + 1), { t with pc := exit, cptr := positions i }⟩ :: states)
      have later := ih (i + 1) (by omega)
      rw [List.range'_succ, List.flatMap_cons]
      simp only [Nat.succ_ne_zero, if_false]
      refine first.append (fun capture => by simp [resume]) (fun capture => ?_) later
      simp only [resume, Bool.false_eq_true, if_false, back i (by omega)]
      cases left with
      | zero => simp
      | succ left => simp

theorem finishQuant_enough {last : Quant} {t : Thread} (enough : last.quantMin ≤ last.q) :
    finishQuant last t states =
      .run { t with pc := last.exit, cptr := last.cptr }
        (if last.q - last.quantMin = 0 then states
        else ⟨.greedyQuant last.exit last.charCount (last.q - last.quantMin),
          { t with pc := last.exit, cptr := last.cptr }⟩ :: states) := by
  simp only [finishQuant, Nat.not_lt.mpr enough, if_false]
  by_cases more : last.quantMin < last.q
  · simp [more, Nat.sub_ne_zero_of_lt more]
  · have none : last.q - last.quantMin = 0 := by omega
    simp [more, none]

theorem Rounds.keeps {quant last : Quant} {t u : Thread} (rounds : Rounds ctx quant t last u) :
    last.exit = quant.exit ∧ last.quantMin = quant.quantMin ∧ last.charCount = quant.charCount := by
  induction rounds with
  | failed => simp
  | full => simp [Quant.round]
  | more _ _ _ ih => simpa [Quant.round] using ih

theorem Explores.settles {t : Thread} (explores : Explores ctx t found)
    (states : List ExecState) : Settles ctx (.run t states) states found := by
  induction explores generalizing states with
  | step here _ ih => exact (ih states).next (by simp only [machineStep, here])
  | @noMatch t here =>
      have taken : machineStep ctx (.run t states) = some (.recurse false t.capture states) := by
        simp only [machineStep, here]
      exact ⟨t.capture, Steps.one taken⟩
  | matched here => exact Steps.one (by simp only [machineStep, here])
  | @split t first second found more here _ _ first_ih second_ih =>
      have taken : machineStep ctx (.run t states) =
          some (.run first (⟨.split, second⟩ :: states)) := by
        simp only [machineStep, here]
      have settles := (first_ih (⟨.split, second⟩ :: states)).append
        (fun capture => by simp [resume]) (fun capture => by simp [resume]) (second_ih states)
      exact settles.next taken
  | @ahead t body exit hit rest found here _ _ body_ih exit_ih =>
      have taken : machineStep ctx (.run t states) =
          some (.run body (⟨.lookahead, exit⟩ :: states)) := by
        simp [machineStep, here]
      have inner : Steps ctx (.run body (⟨.lookahead, exit⟩ :: states))
          (.recurse true hit.capture (⟨.lookahead, exit⟩ :: states)) := body_ih _
      have after := (exit_ih states).next
        (c := .recurse true hit.capture (⟨.lookahead, exit⟩ :: states)) (by simp [machineStep, resume])
      exact (after.later inner).next taken
  | @notAhead t body exit here _ ih =>
      have taken : machineStep ctx (.run t states) =
          some (.run body (⟨.lookahead, exit⟩ :: states)) := by
        simp [machineStep, here]
      obtain ⟨capture, inner⟩ := ih (⟨.lookahead, exit⟩ :: states)
      have back : machineStep ctx (.recurse false capture (⟨.lookahead, exit⟩ :: states)) =
          some (.recurse false capture states) := by
        simp [machineStep, resume]
      exact ⟨capture, Steps.next taken (inner.trans (Steps.one back))⟩
  | @refused t body exit hit rest here _ ih =>
      have taken : machineStep ctx (.run t states) =
          some (.run body (⟨.negativeLookahead, exit⟩ :: states)) := by
        simp [machineStep, here]
      have inner : Steps ctx (.run body (⟨.negativeLookahead, exit⟩ :: states))
          (.recurse true hit.capture (⟨.negativeLookahead, exit⟩ :: states)) := ih _
      have back : machineStep ctx
          (.recurse true hit.capture (⟨.negativeLookahead, exit⟩ :: states)) =
          some (.recurse false hit.capture states) := by
        simp [machineStep, resume]
      exact ⟨hit.capture, Steps.next taken (inner.trans (Steps.one back))⟩
  | @absent t body exit found here _ _ body_ih exit_ih =>
      have taken : machineStep ctx (.run t states) =
          some (.run body (⟨.negativeLookahead, exit⟩ :: states)) := by
        simp [machineStep, here]
      obtain ⟨capture, inner⟩ := body_ih (⟨.negativeLookahead, exit⟩ :: states)
      have back : machineStep ctx (.recurse false capture (⟨.negativeLookahead, exit⟩ :: states)) =
          some (.run exit states) := by
        simp [machineStep, resume]
      exact (((exit_ih states).next back).later inner).next taken
  | @few t u body exit quantMin quantMax charCount last here rounds short =>
      have taken : machineStep ctx (.run t states) =
          some (.quant ⟨body, exit, quantMin, quantMax, charCount, 0, t.cptr⟩ { t with pc := body }
            states) := by
        simp only [machineStep, here]
      have least : last.quantMin = quantMin := rounds.keeps.2.1
      have failed : finishQuant last u states = .recurse false u.capture states := by
        simp [finishQuant, least, short]
      have run := rounds.steps states
      rw [failed] at run
      exact ⟨u.capture, Steps.next taken run⟩
  | @greedy t u body exit quantMin quantMax charCount last positions found here rounds enough first
      back _ ih =>
      have taken : machineStep ctx (.run t states) =
          some (.quant ⟨body, exit, quantMin, quantMax, charCount, 0, t.cptr⟩ { t with pc := body }
            states) := by
        simp only [machineStep, here]
      obtain ⟨sameExit, sameMin, sameCount⟩ := rounds.keeps
      simp only at sameExit sameMin sameCount
      have run := rounds.steps states
      rw [finishQuant_enough (by rw [sameMin]; exact enough), sameExit, sameMin, sameCount,
        ← first] at run
      have all : 0 + (last.q - quantMin) = last.q - quantMin := Nat.zero_add _
      have settles : Settles ctx _ states _ := settles_quant (last.q - quantMin) back ih _ 0 all
      rw [List.range_eq_range']
      exact (settles.later run).next taken

end Machine

end BreezeJs.Regexp
