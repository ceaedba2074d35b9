import BreezeJs.Std.UrlWellFormed

set_option autoImplicit false

namespace BreezeJs.Infra

open Scanning

def Components.origin (url : Components) : Bytes :=
  if url.protocol.isEmpty || url.host.isEmpty then [] else url.protocol ++ text "//" ++ url.host

section Origin

variable {dot : UInt8 → Bool} {s t : Bytes} {first second : Components}

theorem accepted_formed (accepted : matchUrl dot s = some first) (schemed : ¬ text "//" <+: s) :
    WellFormed dot first :=
  parse_serialize_iff.mp ((href_fixpoint_iff accepted).mpr schemed)

theorem WellFormed.origin_text (formed : WellFormed dot first) :
    first.origin = first.protocol ++ text "//" ++ first.host := by
  obtain ⟨scheme, nonempty, _, named⟩ := formed.protocol
  simp [Components.origin, named, nonempty, formed.place.named]

theorem WellFormed.origin_eq_iff (formed : WellFormed dot first) (other : WellFormed dot second) :
    first.origin = second.origin ↔
      first.protocol = second.protocol ∧ first.host = second.host := by
  rw [formed.origin_text, other.origin_text]
  obtain ⟨scheme, _, words, named⟩ := formed.protocol
  obtain ⟨scheme', _, words', named'⟩ := other.protocol
  constructor
  · intro same
    have stops (host : Bytes) : Stops isWord (text "://" ++ host) := stops_cons.mpr rfl
    have written (scheme host : Bytes) :
        scheme ++ text ":" ++ text "//" ++ host = scheme ++ (text "://" ++ host) := by
      simp [text]
    rw [named, named', written, written] at same
    have schemes := congrArg (List.takeWhile isWord) same
    rw [takeWhile_whole words (stops _), takeWhile_whole words' (stops _)] at schemes
    subst schemes
    exact ⟨named.trans named'.symm, List.append_cancel_left (List.append_cancel_left same)⟩
  · rintro ⟨protocol, host⟩
    rw [protocol, host]

def OriginIdentifies (first second : Components) : Prop :=
  first.origin = second.origin ↔
    first.protocol = second.protocol ∧ first.host = second.host ∧ first.port = second.port

/-- The origins of two URLs tell whether they agree in protocol, host and port exactly where the
URLs do not differ in the port alone. -/
theorem origin_identifies_iff (accepted : matchUrl dot s = some first) (schemed : ¬ text "//" <+: s)
    (otherAccepted : matchUrl dot t = some second) (otherSchemed : ¬ text "//" <+: t) :
    OriginIdentifies first second ↔
      (first.protocol = second.protocol ∧ first.host = second.host →
        first.port = second.port) := by
  rw [OriginIdentifies, (accepted_formed accepted schemed).origin_eq_iff
    (accepted_formed otherAccepted otherSchemed)]
  constructor
  · intro identifies alike
    exact (identifies.mp alike).2.2
  · intro ports
    exact ⟨fun alike => ⟨alike.1, alike.2, ports alike⟩, fun alike => ⟨alike.1, alike.2.1⟩⟩

end Origin

theorem origin_identifies_example :
    ∃ first second, matchUrl anyByte (text "http://user:pw@h:80/a?b") = some first ∧
      matchUrl anyByte (text "http://h:80#c") = some second ∧ OriginIdentifies first second := by
  have accepted : matchUrl anyByte (text "http://user:pw@h:80/a?b") =
      some ⟨text "http:", text "user", text "pw", text "h", text "80", text "/a", text "b",
        []⟩ := by
    decide +kernel
  have otherAccepted : matchUrl anyByte (text "http://h:80#c") =
      some ⟨text "http:", [], [], text "h", text "80", [], [], text "c"⟩ := by
    decide +kernel
  exact ⟨_, _, accepted, otherAccepted, (origin_identifies_iff accepted (by decide +kernel)
    otherAccepted (by decide +kernel)).mpr fun _ => rfl⟩

theorem origin_forgets_port : ¬ ∀ s t first second, matchUrl anyByte s = some first →
    ¬ text "//" <+: s → matchUrl anyByte t = some second → ¬ text "//" <+: t →
    OriginIdentifies first second := by
  intro identifies
  have alike := identifies (text "http://h:80") (text "http://h:81")
    ⟨text "http:", [], [], text "h", text "80", [], [], []⟩
    ⟨text "http:", [], [], text "h", text "81", [], [], []⟩ (by decide +kernel) (by decide +kernel)
    (by decide +kernel) (by decide +kernel)
  have ports := (alike.mp (by decide +kernel)).2.2
  revert ports
  decide +kernel

end BreezeJs.Infra
