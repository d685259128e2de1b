import FsMeta.Json.Parser
import FsMeta.Proofs.Json.Lexer

set_option autoImplicit false

namespace FsMeta.Json

theorem State.run_cons (state : State) (token : Token) (rest : List Token) :
    state.run (token :: rest) = (state.step token).bind fun next => next.run rest := by
  rw [State.run.eq_3]
  cases state.step token <;> rfl

-- No value starts with the end of an array, so a first element is read like any other.
theorem run_first (json : Json) (done : List Json) (frames : List Frame) (rest : List Token) :
    State.run { frames := .array done :: frames, expected := .elementOrEnd } (json.tokens ++ rest) =
      State.run { frames := .array done :: frames, expected := .value } (json.tokens ++ rest) := by
  match json with
  | .null | .bool _ | .number _ | .text _ | .array [] | .array (_ :: _) | .object [] | .object (_ :: _) =>
    simp only [tokens, List.cons_append, State.run_cons, State.step]

mutual

theorem run_tokens (json : Json) (frames : List Frame) (rest : List Token) :
    State.run { frames, expected := .value } (json.tokens ++ rest) =
      (State.close json frames).bind fun next => next.run rest := by
  match json with
  | .null | .bool _ | .number _ | .text _ => exact State.run_cons _ _ rest
  | .array [] =>
    simp only [tokens, List.cons_append, State.run_cons]
    rfl
  | .array (element :: others) =>
    have first := run_tokens element (.array [] :: frames) (elementTokens others ++ rest)
    have later := run_elements others [element] frames rest
    simp only [tokens, List.cons_append, List.append_assoc]
    rw [State.run_cons]
    exact (run_first element [] frames _).trans (first.trans later)
  | .object [] =>
    simp only [tokens, List.cons_append, State.run_cons]
    rfl
  | .object ((key, value) :: others) =>
    have first := run_tokens value (.member [] key :: frames) (memberTokens others ++ rest)
    have later := run_members others [(key, value)] frames rest
    simp only [tokens, List.cons_append, List.append_assoc, State.run_cons]
    exact first.trans later

theorem run_elements (elements done : List Json) (frames : List Frame) (rest : List Token) :
    State.run { frames := .array done :: frames, expected := .commaOrEnd } (elementTokens elements ++ rest) =
      (State.close (.array (done.reverse ++ elements)) frames).bind fun next => next.run rest := by
  match elements with
  | [] =>
    rw [List.append_nil]
    exact State.run_cons _ _ rest
  | element :: others =>
    have first := run_tokens element (.array done :: frames) (elementTokens others ++ rest)
    have later := run_elements others (element :: done) frames rest
    rw [List.reverse_cons, List.append_assoc] at later
    simp only [elementTokens, List.cons_append, List.append_assoc, State.run_cons]
    exact first.trans later

theorem run_members (members done : List (Option String × Json)) (frames : List Frame) (rest : List Token) :
    State.run { frames := .object done :: frames, expected := .commaOrEnd } (memberTokens members ++ rest) =
      (State.close (.object (done.reverse ++ members)) frames).bind fun next => next.run rest := by
  match members with
  | [] =>
    rw [List.append_nil]
    exact State.run_cons _ _ rest
  | (key, value) :: others =>
    have first := run_tokens value (.member done key :: frames) (memberTokens others ++ rest)
    have later := run_members others ((key, value) :: done) frames rest
    rw [List.reverse_cons, List.append_assoc] at later
    simp only [memberTokens, List.cons_append, List.append_assoc, State.run_cons]
    exact first.trans later

end

theorem run_value (json : Json) : State.run {} json.tokens = some json := by
  have read := run_tokens json [] []
  rwa [List.append_nil] at read

inductive Plain : Json → Prop
  | null : Plain .null
  | bool (value : Bool) : Plain (.bool value)
  | int (n : Int) : Plain (.int n)
  | string (s : String) : Plain (.string s)
  | array {elements : List Json} (all : ∀ element ∈ elements, Plain element) : Plain (.array elements)
  | fields {members : List (String × Json)} (all : ∀ member ∈ members, Plain member.2) : Plain (.fields members)

structure Follows (tokens : List Token) : Prop where
  legible : Legible tokens
  apart : ∀ next ∈ tokens.head?, ¬ next.IsNumber

section

variable {rest : List Token}

theorem Follows.nil : Follows [] := ⟨.nil, by simp⟩

theorem Follows.number {token : Token} (after : Follows rest) (written : token.Written) : Legible (token :: rest) :=
  .cons written (fun _ => after.apart) after.legible

theorem Legible.mark (after : Legible rest) (token : Token) (written : token.Written)
    (other : ¬ token.IsNumber) : Follows (token :: rest) where
  legible := .cons written (fun number => absurd number other) after
  apart next first := by
    cases first
    exact other

theorem follows_elements {elements : List Json}
    (all : ∀ element ∈ elements, ∀ {rest}, Follows rest → Legible (element.tokens ++ rest)) (after : Follows rest) :
    Follows (elementTokens elements ++ rest) := by
  induction elements with
  | nil => exact after.legible.mark .endArray trivial id
  | cons element others ih =>
    obtain ⟨first, later⟩ := List.forall_mem_cons.1 all
    rw [elementTokens, List.cons_append, List.cons_append, List.append_assoc]
    exact (first (ih later)).mark .comma trivial id

theorem follows_member (key : String) {value : Json} (legible : Legible (value.tokens ++ rest)) :
    Follows (.text (some key) :: .colon :: (value.tokens ++ rest)) :=
  (legible.mark .colon trivial id).legible.mark (.text (some key)) rfl id

theorem follows_members {members : List (String × Json)}
    (all : ∀ member ∈ members, ∀ {rest}, Follows rest → Legible (member.2.tokens ++ rest)) (after : Follows rest) :
    Follows (memberTokens (members.map fun (key, value) => (some key, value)) ++ rest) := by
  induction members with
  | nil => exact after.legible.mark .endObject trivial id
  | cons member others ih =>
    obtain ⟨first, later⟩ := List.forall_mem_cons.1 all
    simp only [List.map_cons, memberTokens, List.cons_append, List.append_assoc]
    exact (follows_member member.1 (first (ih later))).legible.mark .comma trivial id

theorem Plain.legible {json : Json} (plain : Plain json) {rest : List Token} (after : Follows rest) :
    Legible (json.tokens ++ rest) := by
  induction plain generalizing rest with
  | null | bool => exact after.number trivial
  | string s => exact Follows.number after rfl
  | int n => exact after.number ⟨n, rfl⟩
  | @array elements plain ih =>
    rcases elements with _ | ⟨element, others⟩
    · exact ((after.legible.mark .endArray trivial id).legible.mark .beginArray trivial id).legible
    · obtain ⟨first, later⟩ := List.forall_mem_cons.1 ih
      simp only [tokens, List.cons_append, List.append_assoc]
      exact ((first (follows_elements later after)).mark .beginArray trivial id).legible
  | @fields members plain ih =>
    rcases members with _ | ⟨member, others⟩
    · exact ((after.legible.mark .endObject trivial id).legible.mark .beginObject trivial id).legible
    · obtain ⟨first, later⟩ := List.forall_mem_cons.1 ih
      simp only [Json.fields, List.map_cons, tokens, List.cons_append, List.append_assoc]
      have member := follows_member member.1 (first (follows_members later after))
      exact (member.legible.mark .beginObject trivial id).legible

end

theorem parse_render {json : Json} (plain : Plain json) : parse (Utf8.encode json.render) = some json := by
  have legible := plain.legible Follows.nil
  rw [List.append_nil] at legible
  have encoded : Utf8.encode json.render = spelledBytes (json.tokens.flatMap Token.spelled) := by
    rw [Utf8.encode, render, String.toList_ofList]
    rfl
  rw [encoded, parse, scan_spelled legible]
  exact run_value json

end FsMeta.Json
