import AutoLang.Parse.Program
import AutoLang.Proofs.Token.Order
import Mathlib

/-! Reading a given text inside the logic. The scanner goes by the length of what is left, which proofs
can follow and evaluation cannot; with fuel it goes by the fuel. A run that does not use up its fuel
found what the scanner finds, so that a closed text is parsed without problems can be computed. -/

namespace AutoLang

namespace Scan

/-- `ofFrames` with a bound on the moves -/
def runFrames : Nat → Char → List Frame → List Char → Option Scan
  | _, _, [], cs => some ⟨[], cs, none⟩
  | 0, _, _ :: _, _ => none
  | fuel + 1, marker, frame :: frames, cs =>
    match Move.ofFrame marker frame cs with
    | .halt ps why => some ⟨ps, cs.drop (rawOf ps).length, some why⟩
    | .go ps new =>
      (runFrames fuel marker (new ++ frames) (cs.drop (rawOf ps).length)).map fun more =>
        ⟨ps ++ more.pieces, more.rest, more.halt⟩

/-- `whole` with a bound on the lexemes and on the moves in each -/
def runWhole : Nat → Char → List Char → Option Scan
  | 0, _, _ => none
  | fuel + 1, marker, cs =>
    (runFrames fuel marker [.outside] cs).bind fun scan =>
      match scan.halt with
      | some _ => some scan
      | none => (runWhole fuel marker scan.rest).map fun more =>
          ⟨scan.pieces ++ more.pieces, more.rest, more.halt⟩

theorem ofFrames_of_runFrames {fuel : Nat} {marker : Char} {frames : List Frame} {cs : List Char}
    {scan : Scan} (h : runFrames fuel marker frames cs = some scan) :
    ofFrames marker frames cs = scan := by
  induction fuel, marker, frames, cs using runFrames.induct generalizing scan with
  | case1 fuel marker cs =>
    rw [runFrames] at h
    cases h
    exact ofFrames_nil marker cs
  | case2 marker frame frames cs => cases h
  | case3 marker fuel frame frames cs ps why made =>
    rw [runFrames, made] at h
    cases h
    exact ofFrames_of_halt made
  | case4 marker fuel frame frames cs ps new made ih =>
    rw [runFrames, made] at h
    obtain ⟨more, hmore, rfl⟩ := Option.map_eq_some_iff.1 h
    exact ofFrames_of_go made (ih hmore)

theorem whole_of_runWhole {fuel : Nat} {marker : Char} {cs : List Char} {scan : Scan}
    (h : runWhole fuel marker cs = some scan) : whole marker cs = scan := by
  induction fuel generalizing cs scan with
  | zero => cases h
  | succ fuel ih =>
    obtain ⟨first, hfirst, hrun⟩ := Option.bind_eq_some_iff.1 h
    have hone : ofText marker cs = first := ofFrames_of_runFrames hfirst
    subst hone
    split at hrun
    · rename_i hhalt
      cases hrun
      exact whole_of_halt hhalt
    · rename_i hgo
      obtain ⟨more, hmore, rfl⟩ := Option.map_eq_some_iff.1 hrun
      rw [whole_of_go hgo, ih hmore]

end Scan

namespace Lexer

/-- the tokens of a text that is read to its end, as far as the fuel lasts -/
def runTokens? (fuel : Nat) (source : String) (marker : Char) : Option (List Token) :=
  match Scan.runWhole fuel marker source.toList with
  | some ⟨ps, _, some .finished⟩ =>
    some (locate .origin ps ++ [endToken (Mark.origin.pastAll (rawOf ps))])
  | _ => none

theorem tokens_of_runTokens {fuel : Nat} {source : String} {marker : Char}
    (h : (runTokens? fuel source marker).isSome) :
    { ofSource source with marker := marker }.tokens =
      (runTokens? fuel source marker).getD [] := by
  unfold runTokens? at h ⊢
  split at h
  · rename_i ps rest hrun
    have hwhole := Scan.whole_of_runWhole hrun
    rw [(tokens_of_finished (congrArg Scan.halt hwhole)).1, hwhole]
    rfl
  · cases h

end Lexer

namespace Parse

open Lexer (ofSource endToken)

/-- whether a text is parsed without problems, as far as the fuel lasts -/
def runsClean (fuel : Nat) (source : String) (marker : Char) : Bool :=
  match Scan.runWhole fuel marker source.toList with
  | some ⟨ps, _, some .finished⟩ =>
    (code.run (.ofTokens (locate .origin ps ++ [endToken (Mark.origin.pastAll (rawOf ps))]))
      ).2.problems.kept.isEmpty
  | _ => false

theorem diagnostics_of_runsClean {fuel : Nat} {source : String} {marker : Char}
    (h : runsClean fuel source marker = true) :
    (ofLexer { ofSource source with marker := marker }).diagnostics = [] := by
  unfold runsClean at h
  split at h
  · rename_i ps rest hrun
    have hwhole := Scan.whole_of_runWhole hrun
    obtain ⟨htokens, hlex⟩ := Lexer.tokens_of_finished (congrArg Scan.halt hwhole)
    rw [hwhole] at htokens
    rw [← htokens, List.isEmpty_iff] at h
    -- nothing is kept, so nothing is handed out
    refine List.append_eq_nil_iff.2 ⟨hlex, List.length_eq_zero_iff.1 ?_⟩
    exact (List.length_mergeSort _).trans (List.length_eq_zero_iff.2 h)
  · cases h

theorem diagnostics_parse_of_runsClean {fuel : Nat} {source : String}
    (h : runsClean fuel source Lexer.defaultMarker = true) : (parse source).diagnostics = [] :=
  diagnostics_of_runsClean h

theorem code_parse_of_runTokens {fuel : Nat} {source : String}
    (h : (Lexer.runTokens? fuel source Lexer.defaultMarker).isSome) :
    (parse source).code =
      (code.run (.ofTokens ((Lexer.runTokens? fuel source Lexer.defaultMarker).getD []))).1 := by
  rw [← Lexer.tokens_of_runTokens h]
  rfl

/-- a text without problems keeps none, as far as the fuel lasts -/
theorem kept_of_diagnostics {fuel : Nat} {source : String} {marker : Char}
    (h : (Lexer.runTokens? fuel source marker).isSome)
    (hclean : (ofLexer { ofSource source with marker := marker }).diagnostics = []) :
    (code.run (.ofTokens ((Lexer.runTokens? fuel source marker).getD []))).2.problems.kept.isEmpty =
      true := by
  rw [List.isEmpty_iff, ← Lexer.tokens_of_runTokens h]
  have herrors : (List.mergeSort _ DiagnosticQueue.notAfter) = [] :=
    (List.append_eq_nil_iff.1 hclean).2
  rwa [← List.length_eq_zero_iff, List.length_mergeSort, List.length_eq_zero_iff] at herrors

end Parse

end AutoLang
