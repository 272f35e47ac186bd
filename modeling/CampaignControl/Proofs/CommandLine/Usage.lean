import CampaignControl.CommandLine
import CampaignControl.Proofs.Keyed

/-!
# What a worker asks for

The arguments are read from left to right, up to the first that decides the matter. `Reads` says
without the reading what they come to: options, each of them once and with a value that it may
have, and behind them what decides (`readArguments_eq_iff`). `Requests` says the same of the
arguments and the variables together: where each of the five flags has its value from
(`ofArguments_dispatch_iff`). Whatever is neither is misuse (`ofArguments_misuse_iff`).
-/

namespace CampaignControl
namespace CommandLine

/-! ## Options -/

/-- The arguments are options with these values, in one argument or in two. -/
inductive Spells : List String → Values → Prop where
  | nil : Spells [] []
  | joined {flag : Flag} {value : String} {arguments : List String} {values : Values} :
      flag.accepts value → Spells arguments values →
      Spells ((flag.option ++ "=" ++ value) :: arguments) ((flag, value) :: values)
  | apart {flag : Flag} {value : String} {arguments : List String} {values : Values} :
      flag.accepts value → isOption value = false → Spells arguments values →
      Spells (flag.option :: value :: arguments) ((flag, value) :: values)

/-- The argument asks for the version. -/
def AsksVersion (argument : String) : Prop :=
  argument = "--version" ∨ argument.toList.take 2 = ['-', 'V']

/-- The argument asks for an explanation of the options. -/
def AsksHelp (argument : String) : Prop :=
  argument = "--help" ∨ argument.toList.take 2 = ['-', 'h']

/-- What follows options with these values, and what it makes of the arguments. -/
inductive Decides (values : Values) : List String → Arguments → Prop where
  | done : Decides values [] (.given values)
  | terminated : Decides values ["--"] (.given values)
  | version {argument : String} (rest : List String) :
      AsksVersion argument → Decides values (argument :: rest) .version
  | help {argument : String} (rest : List String) :
      AsksHelp argument → Decides values (argument :: rest) .help

/-- After options with the values `given`, the arguments are more options, so that none is given
twice, and then what decides the matter. -/
def Reads (given : Values) (arguments : List String) (said : Arguments) : Prop :=
  ∃ front back values, arguments = front ++ back ∧ Spells front values ∧
    ((given ++ values).map Prod.fst).Nodup ∧ Decides (given ++ values) back said

theorem toList_option (flag : Flag) :
    ∃ rest, flag.option.toList = '-' :: '-' :: rest ∧ '=' ∉ rest ∧ rest ≠ [] := by
  cases flag
  all_goals exact ⟨_, rfl, by decide, by decide⟩

theorem find?_option (flag : Flag) :
    Flag.all.find? (fun other => other.option.toList == flag.option.toList) = some flag := by
  cases flag <;> rfl

theorem toList_joined (flag : Flag) (value : String) :
    (flag.option ++ "=" ++ value).toList = flag.option.toList ++ '=' :: value.toList := by
  simp [String.toList_append]

theorem takeWhile_option (flag : Flag) {cs : List Char} (h : cs = [] ∨ ∃ v, cs = '=' :: v) :
    (flag.option.toList ++ cs).takeWhile (· ≠ '=') = flag.option.toList := by
  obtain ⟨rest, hoption, hfree, -⟩ := toList_option flag
  have hall : ∀ c ∈ flag.option.toList, decide (c ≠ '=') = true := by
    rw [hoption]
    intro c hc
    simp only [List.mem_cons] at hc
    rcases hc with rfl | rfl | hc
    · decide
    · decide
    · exact decide_eq_true fun heq => hfree (heq ▸ hc)
  rw [List.takeWhile_append_of_pos hall]
  rcases h with rfl | ⟨v, rfl⟩ <;> simp

theorem splitOption?_joined (flag : Flag) (value : String) :
    splitOption? (flag.option ++ "=" ++ value) = some (flag, some value) := by
  simp only [splitOption?, toList_joined, takeWhile_option flag (.inr ⟨_, rfl⟩), find?_option,
    Option.map_some, List.drop_left, String.ofList_toList]

theorem splitOption?_option (flag : Flag) : splitOption? flag.option = some (flag, none) := by
  cases flag <;> rfl

/-- An argument is split at its first equals sign. -/
theorem drop_takeWhile_eq {cs v : List Char} {c : Char}
    (h : cs.drop (cs.takeWhile (· ≠ '=')).length = c :: v) : c = '=' := by
  have hparts := List.prefix_iff_eq_append.1 (List.takeWhile_prefix (l := cs) (· ≠ '='))
  have hcut : cs.dropWhile (· ≠ '=') = c :: v := by
    rw [← h]
    exact List.append_cancel_left (List.takeWhile_append_dropWhile.trans hparts.symm)
  have hhead := List.head?_dropWhile_not (fun c : Char => decide (c ≠ '=')) cs
  rw [hcut] at hhead
  simpa using hhead

/-- What is read as an option is written as one. -/
theorem splitOption?_eq_some {argument : String} {flag : Flag} {value : Option String}
    (h : splitOption? argument = some (flag, value)) :
    (value = none ∧ argument = flag.option) ∨
      ∃ v, value = some v ∧ argument = flag.option ++ "=" ++ v := by
  simp only [splitOption?, Option.map_eq_some_iff] at h
  obtain ⟨found, hfind, heq⟩ := h
  have hname : found.option.toList = argument.toList.takeWhile (· ≠ '=') := by
    simpa using List.find?_some hfind
  have hparts := List.prefix_iff_eq_append.1
    (List.takeWhile_prefix (l := argument.toList) (· ≠ '='))
  split at heq
  · next hdrop =>
    cases heq
    rw [hdrop, List.append_nil, ← hname] at hparts
    exact .inl ⟨rfl, String.toList_inj.1 hparts.symm⟩
  · next c v hdrop =>
    cases heq
    cases drop_takeWhile_eq hdrop
    rw [hdrop, ← hname] at hparts
    refine .inr ⟨_, rfl, String.toList_inj.1 ?_⟩
    rw [toList_joined, String.toList_ofList, hparts]

/-! ## Reading -/

theorem addValue?_eq_some {values values' : Values} {flag : Flag} {value : String} :
    addValue? values flag value = some values' ↔
      flag ∉ values.map Prod.fst ∧ flag.accepts value ∧ values' = values ++ [(flag, value)] := by
  rw [← Keyed.contains_iff, addValue?]
  by_cases h : Keyed.contains flag values || !flag.accepts value
  · rw [if_pos h]
    simp only [Bool.or_eq_true, Bool.not_eq_true'] at h
    rcases h with h | h <;> simp [h]
  · rw [if_neg h]
    simp only [Bool.or_eq_true, Bool.not_eq_true', not_or, Bool.not_eq_false] at h
    simp [h, eq_comm]

/-- An argument that starts with the name of an option asks for nothing else. -/
theorem not_asks {argument : String} {flag : Flag} {cs : List Char}
    (h : argument.toList = flag.option.toList ++ cs) :
    argument ≠ "--" ∧ ¬ AsksVersion argument ∧ ¬ AsksHelp argument := by
  refine ⟨?_, ?_, ?_⟩
  · rintro rfl
    cases flag <;> simp [Flag.option] at h
  · rintro (rfl | hshort)
    · cases flag <;> simp [Flag.option] at h
    · cases flag <;> simp [Flag.option, h] at hshort
  · rintro (rfl | hshort)
    · cases flag <;> simp [Flag.option] at h
    · cases flag <;> simp [Flag.option, h] at hshort

/-- What is read after one more value. -/
def readMore (values : Values) (flag : Flag) (value : String) (rest : List String) : Arguments :=
  match addValue? values flag value with
  | none => .misuse
  | some values => readArguments values rest

theorem readArguments_of_not_asks {values : Values} {argument : String} {rest : List String}
    (h : argument ≠ "--" ∧ ¬ AsksVersion argument ∧ ¬ AsksHelp argument) :
    readArguments values (argument :: rest) =
      match splitOption? argument with
      | none => .misuse
      | some (flag, some value) => readMore values flag value rest
      | some (flag, none) =>
        match rest with
        | [] => .misuse
        | value :: rest => if isOption value then .misuse else readMore values flag value rest := by
  obtain ⟨hend, hversion, hhelp⟩ := h
  unfold AsksVersion at hversion
  unfold AsksHelp at hhelp
  rw [readArguments, if_neg hend, if_neg hversion, if_neg hhelp]
  rfl

theorem readArguments_joined (values : Values) (flag : Flag) (value : String) (rest : List String) :
    readArguments values ((flag.option ++ "=" ++ value) :: rest) =
      readMore values flag value rest := by
  rw [readArguments_of_not_asks (not_asks (toList_joined flag value)), splitOption?_joined]

theorem readArguments_apart (values : Values) (flag : Flag) {value : String} (rest : List String)
    (h : isOption value = false) :
    readArguments values (flag.option :: value :: rest) = readMore values flag value rest := by
  rw [readArguments_of_not_asks (not_asks (List.append_nil _).symm), splitOption?_option]
  simp [h]

/-- Options are read one after the other. -/
theorem readArguments_append {front : List String} {values : Values} (h : Spells front values)
    (given : Values) (back : List String) (hnodup : ((given ++ values).map Prod.fst).Nodup) :
    readArguments given (front ++ back) = readArguments (given ++ values) back := by
  have step {given : Values} {flag : Flag} {value : String} {values : Values}
      (haccepts : flag.accepts value)
      (hnodup : ((given ++ (flag, value) :: values).map Prod.fst).Nodup) (rest : List String) :
      readMore given flag value rest = readArguments (given ++ [(flag, value)]) rest := by
    have hnew : flag ∉ given.map Prod.fst := by
      rw [List.map_append, List.nodup_append] at hnodup
      exact fun hmem => hnodup.2.2 _ hmem _ (List.mem_cons_self ..) rfl
    rw [readMore, addValue?_eq_some.2 ⟨hnew, haccepts, rfl⟩]
  induction h generalizing given with
  | nil => simp
  | joined haccepts _ ih =>
    rw [List.cons_append, readArguments_joined, step haccepts hnodup, ih _ (by simpa using hnodup)]
    simp
  | apart haccepts hvalue _ ih =>
    rw [List.cons_append, List.cons_append, readArguments_apart _ _ _ hvalue, step haccepts hnodup,
      ih _ (by simpa using hnodup)]
    simp

theorem readArguments_of_decides {values : Values} {back : List String} {said : Arguments}
    (h : Decides values back said) : readArguments values back = said := by
  cases h with
  | done => rfl
  | terminated => rfl
  | @version argument rest h =>
    have hend : argument ≠ "--" := by
      rintro rfl
      exact absurd h (by simp [AsksVersion])
    rw [readArguments, if_neg hend, if_pos (show _ ∨ _ from h)]
  | @help argument rest h =>
    have hend : argument ≠ "--" := by
      rintro rfl
      exact absurd h (by simp [AsksHelp])
    have hversion : ¬ AsksVersion argument := by
      rintro (rfl | hshort)
      · exact absurd h (by simp [AsksHelp])
      · rcases h with rfl | h
        · simp at hshort
        · rw [hshort] at h; simp at h
    unfold AsksVersion at hversion
    rw [readArguments, if_neg hend, if_neg hversion, if_pos (show _ ∨ _ from h)]

theorem Reads.of_decides {given : Values} {arguments : List String} {said : Arguments}
    (hnodup : (given.map Prod.fst).Nodup) (h : Decides given arguments said) :
    Reads given arguments said :=
  ⟨[], arguments, [], rfl, .nil, by simpa using hnodup, by simpa using h⟩

theorem Reads.joined {given : Values} {flag : Flag} {value : String} {rest : List String}
    {said : Arguments} (haccepts : flag.accepts value)
    (h : Reads (given ++ [(flag, value)]) rest said) :
    Reads given ((flag.option ++ "=" ++ value) :: rest) said := by
  obtain ⟨front, back, values, rfl, hspells, hnodup, hdecides⟩ := h
  rw [List.append_assoc] at hnodup hdecides
  exact ⟨_, back, _, rfl, .joined haccepts hspells, hnodup, hdecides⟩

theorem Reads.apart {given : Values} {flag : Flag} {value : String} {rest : List String}
    {said : Arguments} (haccepts : flag.accepts value) (hvalue : isOption value = false)
    (h : Reads (given ++ [(flag, value)]) rest said) :
    Reads given (flag.option :: value :: rest) said := by
  obtain ⟨front, back, values, rfl, hspells, hnodup, hdecides⟩ := h
  rw [List.append_assoc] at hnodup hdecides
  exact ⟨_, back, _, rfl, .apart haccepts hvalue hspells, hnodup, hdecides⟩

theorem nodup_append_singleton {given : Values} {flag : Flag} (value : String)
    (hnodup : (given.map Prod.fst).Nodup) (hnew : flag ∉ given.map Prod.fst) :
    ((given ++ [(flag, value)]).map Prod.fst).Nodup := by
  rw [List.map_append, List.map_singleton, List.nodup_append]
  refine ⟨hnodup, List.pairwise_singleton _ _, fun other hmem _ hflag heq => hnew ?_⟩
  have hsame : other = flag := heq.trans (List.mem_singleton.1 hflag)
  exact hsame ▸ hmem

theorem reads_readArguments {given : Values} {arguments : List String}
    (hread : readArguments given arguments ≠ .misuse) (hnodup : (given.map Prod.fst).Nodup) :
    Reads given arguments (readArguments given arguments) := by
  fun_induction readArguments given arguments with
  | case1 => exact .of_decides hnodup .done
  | case2 given rest hempty =>
    cases List.isEmpty_iff.1 hempty
    exact .of_decides hnodup .terminated
  | case4 given argument rest hend hversion => exact .of_decides hnodup (.version rest hversion)
  | case5 given argument rest hend hversion hhelp =>
    exact .of_decides hnodup (.help rest hhelp)
  | case8 given argument rest hend hversion hhelp flag value hsplit values hadd ih =>
    obtain ⟨hnew, haccepts, rfl⟩ := addValue?_eq_some.1 hadd
    obtain ⟨hnone, -⟩ | ⟨v, hv, rfl⟩ := splitOption?_eq_some hsplit
    · cases hnone
    · cases hv
      exact .joined haccepts (ih hread (nodup_append_singleton value hnodup hnew))
  | case12 given argument hend hversion hhelp flag hsplit value rest hvalue values hadd ih =>
    obtain ⟨hnew, haccepts, rfl⟩ := addValue?_eq_some.1 hadd
    obtain ⟨-, rfl⟩ | ⟨v, hv, -⟩ := splitOption?_eq_some hsplit
    · exact .apart haccepts (by simpa using hvalue)
        (ih hread (nodup_append_singleton value hnodup hnew))
    · cases hv
  | case3 | case6 | case7 | case9 | case10 | case11 => exact absurd rfl hread

/-- **Reading the arguments.** What they come to, misuse apart, is what they are read as. -/
theorem readArguments_eq_iff {arguments : List String} {said : Arguments} (h : said ≠ .misuse) :
    readArguments [] arguments = said ↔ Reads [] arguments said := by
  constructor
  · rintro rfl
    exact reads_readArguments h List.nodup_nil
  · rintro ⟨front, back, values, rfl, hspells, hnodup, hdecides⟩
    rw [readArguments_append hspells [] back hnodup, readArguments_of_decides hdecides]

/-! ## Variables -/

/-- Neither the option nor the variable of the flag is there. -/
def Absent (values : Values) (env : Environment) (flag : Flag) : Prop :=
  Keyed.find? flag values = none ∧ Keyed.find? flag.variableName env = none

/-- Where the value of a flag comes from: its option, or else its variable. -/
inductive Source (values : Values) (env : Environment) (flag : Flag) (value : String) : Prop where
  | option : Keyed.find? flag values = some value → Source values env flag value
  | variable : Keyed.find? flag values = none → Keyed.find? flag.variableName env = some value →
      flag.accepts value → Source values env flag value

/-- The value of a flag that may be left out. -/
inductive Choice (values : Values) (env : Environment) (flag : Flag) : Option String → Prop where
  | present {value : String} : Source values env flag value → Choice values env flag (some value)
  | absent : Absent values env flag → Choice values env flag none

/-- Where the worker index comes from: its flag, or else the second variable. -/
inductive IndexSource (values : Values) (env : Environment) (index : Nat) : Prop where
  | flag {text : String} : Source values env .index text →
      readIndex? text.toList = some index → IndexSource values env index
  | completion {text : String} : Absent values env .index →
      Keyed.find? completionVariable env = some text →
      readIndex? (trim text.toList) = some index → IndexSource values env index

/-- Values and variables are those of a worker with these options. -/
structure Supplies (values : Values) (env : Environment) (options : Options) : Prop where
  baseConfig : Source values env .baseConfig options.baseConfig
  batches : Source values env .batches options.batches
  index : IndexSource values env options.index
  output : Choice values env .output options.output
  batchOutput : Choice values env .batchOutput options.batchOutput

/-- Arguments and variables ask for the work with these options. -/
def Requests (arguments : List String) (env : Environment) (options : Options) : Prop :=
  ∃ values, Reads [] arguments (.given values) ∧ Supplies values env options

variable {values : Values} {env : Environment}

theorem valueOf?_eq_ok_iff {flag : Flag} {value : Option String} :
    valueOf? values env flag = .ok value ↔ Choice values env flag value := by
  constructor
  · intro h
    unfold valueOf? at h
    split at h
    · next found => cases h; exact .present (.option found)
    · next hnone found =>
      split at h
      · next haccepts => cases h; exact .present (.variable hnone found haccepts)
      · cases h
    · next hnone hunset => cases h; exact .absent ⟨hnone, hunset⟩
  · rintro (h | ⟨hnone, hunset⟩)
    · rcases h with h | ⟨hnone, h, haccepts⟩
      · simp only [valueOf?, h]
      · simp only [valueOf?, hnone, h, haccepts, if_true]
    · simp only [valueOf?, hnone, hunset]

theorem Choice.unique {flag : Flag} {value value' : Option String}
    (h : Choice values env flag value) (h' : Choice values env flag value') : value = value' :=
  Except.ok.inj ((valueOf?_eq_ok_iff.2 h).symm.trans (valueOf?_eq_ok_iff.2 h'))

theorem Choice.source {flag : Flag} {value : String} (h : Choice values env flag (some value)) :
    Source values env flag value := by
  cases h
  assumption

theorem workerIndex?_eq_some_iff {text : Option String} {index : Nat}
    (h : Choice values env .index text) :
    workerIndex? text env = some index ↔ IndexSource values env index := by
  constructor
  · intro hindex
    cases h with
    | present hsource => exact .flag hsource hindex
    | absent habsent =>
      obtain ⟨text, hset, hindex⟩ := Option.bind_eq_some_iff.1 hindex
      exact .completion habsent hset hindex
  · rintro (⟨hsource, hindex⟩ | ⟨habsent, hset, hindex⟩)
    · cases h.unique (.present hsource)
      exact hindex
    · cases h.unique (.absent habsent)
      exact Option.bind_eq_some_iff.2 ⟨_, hset, hindex⟩

/-- An index is read back from its digits. -/
theorem readIndex?_toString {n : Nat} (h : n < 0x10000000000000000) :
    readIndex? (toString n).toList = some n := by
  rw [Nat.toString_eq_ofList_toDigits, String.toList_ofList]
  have hdigits : ∀ c ∈ Nat.toDigits 10 n, c.isDigit = true := fun _ hc =>
    Nat.isDigit_of_mem_toDigits (by decide) (by decide) hc
  have hread : (Nat.toDigits 10 n).foldl (fun n c => 10 * n + (c.toNat - '0'.toNat)) 0 = n :=
    Nat.ofDigitChars_eq_foldl.symm.trans (Nat.ofDigitChars_toDigits (by decide) (by decide))
  have hall : (Nat.toDigits 10 n).all Char.isDigit = true := List.all_eq_true.2 hdigits
  have hempty : (Nat.toDigits 10 n).isEmpty = false := by simp
  unfold readIndex?
  split
  · next cs hplus =>
    exact absurd (hdigits '+' (hplus ▸ List.mem_cons_self)) (by decide)
  · simp only [hempty, hall, hread, Bool.not_true, Bool.or_self, Bool.false_eq_true, if_false,
      if_pos h]

theorem bind_eq_ok_iff {ε α β : Type} {x : Except ε α} {f : α → Except ε β} {b : β} :
    x >>= f = .ok b ↔ ∃ a, x = .ok a ∧ f a = .ok b := by
  cases x <;> simp [bind, Except.bind]

/-- **The options.** They are put together from their sources, and whenever each has one. -/
theorem resolve_eq_ok_iff {options : Options} :
    resolve values env = .ok options ↔ Supplies values env options := by
  simp only [resolve, bind_eq_ok_iff, valueOf?_eq_ok_iff]
  constructor
  · rintro ⟨baseConfig, hbase, batches, hbatches, text, hindex, output, houtput, batchOutput,
      hbatchOutput, h⟩
    split at h
    · next index hworker =>
      cases h
      exact ⟨hbase.source, hbatches.source, (workerIndex?_eq_some_iff hindex).1 hworker, houtput,
        hbatchOutput⟩
    · cases h
  · intro ⟨hbase, hbatches, hindex, houtput, hbatchOutput⟩
    obtain ⟨text, htext⟩ : ∃ text, Choice values env .index text := by
      cases hindex with
      | flag hsource => exact ⟨_, .present hsource⟩
      | completion habsent => exact ⟨_, .absent habsent⟩
    refine ⟨_, .present hbase, _, .present hbatches, _, htext, _, houtput, _, hbatchOutput, ?_⟩
    rw [(workerIndex?_eq_some_iff htext).2 hindex]

/-! ## What is asked for -/

variable {arguments : List String} {options : Options}

theorem ofArguments_version_iff :
    Invocation.ofArguments arguments env = .version ↔ Reads [] arguments .version := by
  rw [← readArguments_eq_iff (by simp), Invocation.ofArguments]
  cases readArguments [] arguments with
  | given values => cases h : resolve values env <;> simp [h]
  | _ => simp

theorem ofArguments_help_iff :
    Invocation.ofArguments arguments env = .help env ↔ Reads [] arguments .help := by
  rw [← readArguments_eq_iff (by simp), Invocation.ofArguments]
  cases readArguments [] arguments with
  | given values => cases h : resolve values env <;> simp [h]
  | _ => simp

theorem ofArguments_dispatch_iff :
    Invocation.ofArguments arguments env = .dispatch options ↔ Requests arguments env options := by
  have hreads (values : Values) :
      Reads [] arguments (.given values) ↔ readArguments [] arguments = .given values :=
    (readArguments_eq_iff (by simp)).symm
  simp only [Requests, hreads, ← resolve_eq_ok_iff, Invocation.ofArguments]
  cases readArguments [] arguments with
  | given values => cases h : resolve values env <;> simp [h]
  | _ => simp

/-- The explanation is given for the variables that are set. -/
theorem env_of_ofArguments_help {env' : Environment}
    (h : Invocation.ofArguments arguments env = .help env') : env' = env := by
  rw [Invocation.ofArguments] at h
  cases hread : readArguments [] arguments with
  | given values => cases hresolve : resolve values env <;> simp [hread, hresolve] at h
  | help => simpa [hread, eq_comm] using h
  | _ => simp [hread] at h

/-- Whatever cannot be understood is misuse. -/
theorem ofArguments_misuse_iff :
    Invocation.ofArguments arguments env = .misuse ↔
      ¬ Reads [] arguments .version ∧ ¬ Reads [] arguments .help ∧
        ∀ options, ¬ Requests arguments env options := by
  have hversion := @ofArguments_version_iff env arguments
  have hhelp := @ofArguments_help_iff env arguments
  simp only [← hversion, ← hhelp, ← ofArguments_dispatch_iff]
  cases h : Invocation.ofArguments arguments env with
  | help env' => simp [env_of_ofArguments_help h]
  | _ => simp

end CommandLine
end CampaignControl
