import AutoLang.CommandLine.Arguments
import Mathlib

/-! Options in any order. Every option decides one part of the invocation and leaves the others as they are,
so options that decide different parts can be given in any order. A value is taken as it stands, whatever it
looks like; a file is only taken where no action stands before it, which is so if it is the only action. -/

namespace AutoLang.CommandLine

/-- what options decide -/
inductive Part where
  | action | output | mode | style | dump
deriving DecidableEq

/-- an option, with its value if it has one, or a file -/
inductive Choice where
  | evaluate (code : String)
  | compile (target : String)
  | interactive
  | file (path : String) (h : path = "-" ∨ path.startsWith "-" = false)
  | output (name : String)
  | mode (m : EvalMode)
  | guard
  | dump (d : Dump)

/-- a question, which is answered instead of anything else -/
inductive Question where
  | version (long : Bool)
  | help (long : Bool)

/-- arguments that belong together -/
inductive Group where
  | choice (c : Choice)
  | question (q : Question)

namespace Choice

def part : Choice → Part
  | evaluate _ | compile _ | interactive | file _ _ => .action
  | output _ => .output
  | mode _ => .mode
  | guard => .style
  | dump _ => .dump

/-- how it is given -/
def args : Choice → List String
  | evaluate code => ["-e", code]
  | compile target => ["-t", target]
  | interactive => ["--repl"]
  | file path _ => [path]
  | output name => ["-o", name]
  | mode m => ["--mode", m.name]
  | guard => ["--include-guard"]
  | dump .tree => ["--ast"]
  | dump .tokens => ["--tokens"]

/-- the invocation has the value that was given -/
def CarriedBy (inv : Invocation) : Choice → Prop
  | evaluate code => inv.action = .evaluate code
  | compile target => inv.action = .compile target
  | interactive => inv.action = .interactive
  | file path _ => inv.action = .runFile path
  | output name => inv.output = some name
  | mode m => inv.mode = m
  | guard => inv.style = .define
  | dump d => inv.dump = some d

end Choice

namespace Question

/-- how it is asked -/
def flag : Question → String
  | version false => "-v"
  | version true => "--version"
  | help false => "-h"
  | help true => "--help"

def action : Question → Action
  | version _ => .version
  | help _ => .help

end Question

namespace Group

def args : Group → List String
  | choice c => c.args
  | question q => [q.flag]

def choice? : Group → Option Choice
  | choice c => some c
  | question _ => none

def question? : Group → Option Question
  | choice _ => none
  | question q => some q

end Group

/-- two invocations do not differ in a part -/
def Part.Same (inv inv' : Invocation) : Part → Prop
  | action => inv.action = inv'.action
  | output => inv.output = inv'.output
  | mode => inv.mode = inv'.mode
  | style => inv.style = inv'.style
  | dump => inv.dump = inv'.dump

/-- the invocation that choices make: each decides its part, and what none decides is as in one without
options -/
structure Invocation.Follows (inv : Invocation) (cs : List Choice) : Prop where
  carried : ∀ c ∈ cs, c.CarriedBy inv
  rest : ∀ p ∉ cs.map Choice.part, p.Same inv (.plain .help)

/-- one action is chosen, and nothing is decided twice -/
structure Decided (cs : List Choice) : Prop where
  action : .action ∈ cs.map Choice.part
  once : (cs.map Choice.part).Nodup

section Choices

variable {inv inv' : Invocation} {cs cs' : List Choice} {c d : Choice} {p : Part}

/-- the invocation after a choice -/
def Invocation.choose (inv : Invocation) : Choice → Invocation
  | .evaluate code => { inv with action := .evaluate code }
  | .compile target => { inv with action := .compile target }
  | .interactive => { inv with action := .interactive }
  | .file path _ => { inv with action := .runFile path }
  | .output name => { inv with output := some name }
  | .mode m => { inv with mode := m }
  | .guard => { inv with style := .define }
  | .dump d => { inv with dump := some d }

theorem carriedBy_choose (inv : Invocation) (c : Choice) : c.CarriedBy (inv.choose c) := by
  cases c <;> rfl

theorem same_choose (inv : Invocation) (hp : p ≠ c.part) : p.Same (inv.choose c) inv := by
  cases p <;> cases c <;> first | rfl | exact absurd rfl hp

/-- whether a choice is carried is seen from its part -/
theorem Choice.CarriedBy.of_same (h : c.CarriedBy inv) (hsame : c.part.Same inv' inv) : c.CarriedBy inv' := by
  cases c <;> exact Eq.trans hsame h

theorem Part.Same.trans {inv'' : Invocation} (h : p.Same inv inv') (h' : p.Same inv' inv'') :
    p.Same inv inv'' := by
  cases p <;> exact Eq.trans h h'

theorem choose_comm (inv : Invocation) (h : c.part ≠ d.part) :
    (inv.choose c).choose d = (inv.choose d).choose c := by
  cases c <;> cases d <;> first | rfl | exact absurd rfl h

/-- choices of different parts can be made in any order -/
theorem chosen_of_perm (hperm : cs.Perm cs') (honce : (cs.map Choice.part).Nodup) (inv : Invocation) :
    cs.foldl .choose inv = cs'.foldl .choose inv := by
  refine hperm.foldl_eq' (fun c hc d hd inv => ?_) inv
  by_cases hpart : c.part = d.part
  · rw [List.inj_on_of_nodup_map honce hc hd hpart]
  · exact choose_comm inv hpart

/-- what choices leave as it is -/
theorem same_chosen (inv : Invocation) (hp : p ∉ cs.map Choice.part) : p.Same (cs.foldl .choose inv) inv := by
  induction cs generalizing inv with
  | nil => cases p <;> rfl
  | cons c cs ih =>
    rw [List.map_cons, List.mem_cons, not_or] at hp
    exact (ih (inv.choose c) hp.2).trans (same_choose inv hp.1)

theorem carriedBy_chosen (inv : Invocation) (honce : (cs.map Choice.part).Nodup) (hc : c ∈ cs) :
    c.CarriedBy (cs.foldl .choose inv) := by
  induction cs generalizing inv with
  | nil => cases hc
  | cons d cs ih =>
    obtain ⟨hd, honce⟩ := List.nodup_cons.mp honce
    rcases List.mem_cons.mp hc with rfl | hc
    · exact (carriedBy_choose inv c).of_same (same_chosen _ hd)
    · exact ih (inv.choose d) honce hc

theorem follows_chosen (honce : (cs.map Choice.part).Nodup) :
    Invocation.Follows (cs.foldl .choose (.plain .help)) cs :=
  ⟨fun _ => carriedBy_chosen _ honce, fun _ => same_chosen _⟩

end Choices

section Parsing

variable {action : Option Action} {inv : Invocation} {c : Choice}

/-- what arguments decide so far -/
def soFar (action : Option Action) (inv : Invocation) : Invocation :=
  { inv with action := action.getD inv.action }

/-- the arguments that are no files -/
def flags : List String :=
  ["-v", "--version", "-h", "--help", "-e", "-t", "-o", "--mode", "--include-guard", "--repl", "--ast",
    "--tokens"]

theorem parseFrom_file {path : String} (h : path = "-" ∨ path.startsWith "-" = false) (rest : List String) :
    parseFrom none inv (path :: rest) = parseFrom (some (.runFile path)) inv rest := by
  have hfile : (path.startsWith "-" && path != "-") = false := by
    rcases h with rfl | h
    · exact Bool.and_false _
    · rw [h, Bool.false_and]
  have hflags : ∀ flag ∈ flags, (flag.startsWith "-" && flag != "-") = true := by decide +kernel
  have hne {flag : String} (heq : path = flag) (hflag : flag ∈ flags) : False := by
    rw [heq, hflags flag hflag] at hfile
    cases hfile
  rw [parseFrom]
  · simp [hfile]
  all_goals
    intros
    refine hne ‹_› ?_
    decide

/-- A group of arguments is read as the choice it makes, whatever stands behind it; an action is only asked
for where there is none. -/
theorem parseFrom_choice (inv : Invocation) (rest : List String)
    (h : c.part = .action → action = none) :
    ∃ action' inv', parseFrom action inv (c.args ++ rest) = parseFrom action' inv' rest ∧
      soFar action' inv' = (soFar action inv).choose c ∧
      action'.isSome = (action.isSome || c.part = .action) := by
  cases c with
  | evaluate code => exact ⟨some (.evaluate code), inv, rfl, rfl, by simp [Choice.part]⟩
  | compile target => exact ⟨some (.compile target), inv, rfl, rfl, by simp [Choice.part]⟩
  | interactive => exact ⟨some .interactive, inv, rfl, rfl, by simp [Choice.part]⟩
  | file path hpath =>
    obtain rfl := h rfl
    exact ⟨some (.runFile path), inv, parseFrom_file hpath rest, rfl, rfl⟩
  | output name => exact ⟨action, { inv with output := some name }, rfl, rfl, by simp [Choice.part]⟩
  | mode m =>
    refine ⟨action, { inv with mode := m }, ?_, rfl, by simp [Choice.part]⟩
    cases m <;> rfl
  | guard => exact ⟨action, { inv with style := .define }, rfl, rfl, by simp [Choice.part]⟩
  | dump d =>
    refine ⟨action, { inv with dump := some d }, ?_, rfl, by simp [Choice.part]⟩
    cases d <;> rfl

theorem parseFrom_question (action : Option Action) (inv : Invocation) (q : Question) (rest : List String) :
    parseFrom action inv (q.flag :: rest) = .ok (.plain q.action) := by
  rcases q with (_ | _) | (_ | _) <;> rfl

/-- Groups of arguments are read one after another, up to the first question. The action is found among
them, or there was one and there is none among them. -/
theorem parseFrom_groups {groups : List Group}
    (honce : ((groups.filterMap Group.choice?).map Choice.part).Nodup)
    (haction : action.isSome = decide (.action ∉ (groups.filterMap Group.choice?).map Choice.part)) :
    parseFrom action inv (groups.flatMap Group.args) = .ok (match groups.findSome? Group.question? with
      | some q => .plain q.action
      | none => (groups.filterMap Group.choice?).foldl .choose (soFar action inv)) := by
  induction groups generalizing action inv with
  | nil =>
    obtain ⟨a, rfl⟩ := Option.isSome_iff_exists.mp haction
    rfl
  | cons g groups ih =>
    rw [List.flatMap_cons]
    cases g with
    | question q => exact parseFrom_question action inv q _
    | choice c =>
      rw [List.filterMap_cons_some (show (Group.choice c).choice? = some c from rfl)] at honce haction ⊢
      rw [List.map_cons] at honce haction
      obtain ⟨hc, honce⟩ := List.nodup_cons.mp honce
      have hfirst : c.part = .action → action = none := by
        intro hpart
        simpa [hpart] using haction
      obtain ⟨action', inv', hparse, hsoFar, hsome⟩ := parseFrom_choice inv (groups.flatMap Group.args) hfirst
      have haction' : action'.isSome =
          decide (.action ∉ (groups.filterMap Group.choice?).map Choice.part) := by
        rw [hsome, haction]
        by_cases hpart : c.part = .action
        · rw [hpart] at hc
          simp [hpart, hc]
        · simp [hpart, Ne.symm hpart]
      refine hparse.trans ((ih honce haction').trans ?_)
      rw [hsoFar]
      rfl

end Parsing

/-- Options can be given in any order: one action and at most one option for each other part are read as one
invocation, the same in every order. It carries each value as it stands, even one that begins like an option,
and is without options otherwise. With questions among them, wherever they stand, the first of them is
answered. -/
theorem options_in_any_order (cs : List Choice) (h : Decided cs) :
    ∃ inv : Invocation, inv.Follows cs ∧ ∀ groups : List Group, (groups.filterMap Group.choice?).Perm cs →
      parseArguments (groups.flatMap Group.args) = .ok (match groups.findSome? Group.question? with
        | some q => .plain q.action
        | none => inv) := by
  refine ⟨cs.foldl .choose (.plain .help), follows_chosen h.once, fun groups hperm => ?_⟩
  have hparts := hperm.map Choice.part
  have honce : ((groups.filterMap Group.choice?).map Choice.part).Nodup := hparts.nodup_iff.mpr h.once
  have haction : .action ∈ (groups.filterMap Group.choice?).map Choice.part :=
    hparts.mem_iff.mpr h.action
  rw [← chosen_of_perm hperm honce]
  exact parseFrom_groups honce (by simp only [haction, not_true, decide_false]; rfl)

/-- an output name and a program that look like options, and questions among them -/
theorem options_in_any_order_dashes :
    Decided [.output "-v", .guard, .compile "-x"] ∧
      parseArguments ["-o", "-v", "--include-guard", "-t", "-x"] =
        .ok ⟨.compile "-x", some "-v", .script, .define, none⟩ ∧
      parseArguments ["-t", "-x", "-o", "-v", "--include-guard"] =
        .ok ⟨.compile "-x", some "-v", .script, .define, none⟩ ∧
      parseArguments ["-t", "-x", "--help", "-o", "-v", "--version", "--include-guard"] =
        .ok (.plain .help) := by
  have hdecided : Decided [.output "-v", .guard, .compile "-x"] := ⟨by decide, by decide⟩
  obtain ⟨inv, hfollows, hparse⟩ := options_in_any_order _ hdecided
  have hinv : inv = ⟨.compile "-x", some "-v", .script, .define, none⟩ := by
    have haction : inv.action = _ := hfollows.carried (.compile "-x") (by simp)
    have houtput : inv.output = _ := hfollows.carried (.output "-v") (by simp)
    have hmode : inv.mode = _ := hfollows.rest .mode (by decide)
    have hstyle : inv.style = _ := hfollows.carried .guard (by simp)
    have hdump : inv.dump = _ := hfollows.rest .dump (by decide)
    rw [Invocation.mk.injEq]
    exact ⟨haction, houtput, hmode, hstyle, hdump⟩
  subst hinv
  have hperm : [Choice.compile "-x", .output "-v", .guard].Perm [.output "-v", .guard, .compile "-x"] :=
    (List.perm_append_singleton (Choice.compile "-x") [.output "-v", .guard]).symm
  exact ⟨hdecided,
    hparse [.choice (.output "-v"), .choice .guard, .choice (.compile "-x")] (.refl _),
    hparse [.choice (.compile "-x"), .choice (.output "-v"), .choice .guard] hperm,
    hparse [.choice (.compile "-x"), .question (.help true), .choice (.output "-v"),
      .question (.version true), .choice .guard] hperm⟩

end AutoLang.CommandLine
