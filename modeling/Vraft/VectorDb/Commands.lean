import Vraft.VectorDb.Naming

/-!
# Commands of the console

`GetCmd` of `vectordb/parser.cc`.  A line is taken apart at its spaces to find the
command, and put together again to be taken apart at any white space.  The second word
of `create` and `build` is compared before the words are counted.
-/

namespace Vraft.VectorDb

/-! ## Lines -/

/-- A text of ASCII characters. -/
def ascii (s : String) : Bytes :=
  s.toList.map Char.toUInt8

/-- A space. -/
def space : UInt8 := 32

/-- The words that `stream >> token` finds in a string that has been read up to `temp`. -/
def wordsFrom : Bytes → Bytes → List Bytes
  | temp, [] => if temp = [] then [] else [temp]
  | temp, ch :: rest =>
      if isSpace ch then
        if temp = [] then wordsFrom [] rest
        else temp :: wordsFrom [] rest
      else wordsFrom (temp ++ [ch]) rest

/-- The strings that `argv` points to. -/
def convertStringToArgcArgv (s : Bytes) : List Bytes :=
  (wordsFrom [] s).map cStr

/-- Every piece, with a blank behind it. -/
def mergeString (strs : List Bytes) : Bytes :=
  strs.flatMap fun s => s ++ [space]

/-! ## Commands -/

/-- The commands of the console. -/
inductive VectordbCmd
  | error
  | help
  | version
  | quit
  | meta_
  | put
  | get
  | delete
  | getKNN
  | getKNN2
  | load
  | createTable
  | buildIndex
  | descTable
  | descPartition
  | descDescReplica
  | descDescEngine
  | showTables
  | showPartitions
  | showReplicas
  deriving DecidableEq

/-- `CmdStr`. -/
def cmdStr : VectordbCmd → Bytes
  | .error => ascii "kCmdError"
  | .help => ascii "kCmdHelp"
  | .version => ascii "kCmdVersion"
  | .quit => ascii "kCmdQuit"
  | .meta_ => ascii "kMeta"
  | .put => ascii "kCmdPut"
  | .get => ascii "kCmdGet"
  | .delete => ascii "kCmdDelete"
  | .getKNN => ascii "kCmdGetKNN"
  | .getKNN2 => ascii "kCmdGetKNN2"
  | .load => ascii "kCmdLoad"
  | .createTable => ascii "kCmdCreateTable"
  | .buildIndex => ascii "kCmdBuildIndex"
  | .descTable => ascii "kDescTable"
  | .descPartition => ascii "kDescPartition"
  | .descDescReplica => ascii "kDescDescReplica"
  | .descDescEngine => ascii "kDescDescEngine"
  | .showTables => ascii "kShowTables"
  | .showPartitions => ascii "kShowPartitions"
  | .showReplicas => ascii "kShowReplicas"

/-- What a command line reads beyond its pieces. -/
inductive CmdFault
  /-- `result[1]` of a single token. -/
  | token
  deriving DecidableEq, Repr

/-- The command and `argv`, which is left alone by an error. -/
abbrev CmdResult := Except CmdFault (VectordbCmd × List Bytes)

/-- `create` and `build`: a second word and any arguments. -/
def argumentsCmd (cmd : VectordbCmd) (cmdArg2 : Bytes) : List Bytes → CmdResult
  | [] => .error .token
  | arg2 :: rest =>
      if arg2 = cmdArg2 ∧ 0 < rest.length then
        .ok (cmd, convertStringToArgcArgv (cmdStr cmd ++ space :: mergeString rest))
      else .ok (.error, [])

/-- What `desc` makes of an object that is named. -/
def descKind (cmd : VectordbCmd) (name : Bytes) : CmdResult :=
  .ok (cmd, convertStringToArgcArgv (cmdStr cmd ++ ascii " --name=" ++ name))

/-- `desc`: a kind and a name. -/
def descCmd : List Bytes → CmdResult
  | [kind, name] =>
      if kind = ascii "table" then descKind .descTable name
      else if kind = ascii "partition" then descKind .descPartition name
      else if kind = ascii "replica" then descKind .descDescReplica name
      else if kind = ascii "engine" then descKind .descDescEngine name
      else .ok (.error, [])
  | _ => .ok (.error, [])

/-- Nothing but the name of the command. -/
def plainCmd (cmd : VectordbCmd) : CmdResult :=
  .ok (cmd, convertStringToArgcArgv (cmdStr cmd))

/-- `show`: a kind. -/
def showCmd : List Bytes → CmdResult
  | [kind] =>
      if kind = ascii "tables" then plainCmd .showTables
      else if kind = ascii "partitions" then plainCmd .showPartitions
      else if kind = ascii "replicas" then plainCmd .showReplicas
      else .ok (.error, [])
  | _ => .ok (.error, [])

/-- A word on its own. -/
def loneCmd (cmd : VectordbCmd) (rest : List Bytes) : CmdResult :=
  if rest.length = 0 then plainCmd cmd else .ok (.error, [])

/-- A word with a number of options; the line is used as it is. -/
def optionsCmd (cmd : VectordbCmd) (counts : List ℕ) (cmdLine : Bytes) (rest : List Bytes) :
    CmdResult :=
  if rest.length ∈ counts then .ok (cmd, convertStringToArgcArgv cmdLine) else .ok (.error, [])

/-- `GetCmd`: by the first word. -/
def getCmd (cmdLine : Bytes) : CmdResult :=
  match split cmdLine space with
  | [] => .ok (.error, [])
  | word :: rest =>
      if word = ascii "create" then argumentsCmd .createTable (ascii "table") rest
      else if word = ascii "build" then argumentsCmd .buildIndex (ascii "index") rest
      else if word = ascii "desc" then descCmd rest
      else if word = ascii "show" then showCmd rest
      else if word = ascii "help" then loneCmd .help rest
      else if word = ascii "version" then loneCmd .version rest
      else if word = ascii "quit" then loneCmd .quit rest
      else if word = ascii "meta" then loneCmd .meta_ rest
      else if word = ascii "put" then optionsCmd .put [3, 4] cmdLine rest
      else if word = ascii "get" then optionsCmd .get [2] cmdLine rest
      else if word = ascii "del" then optionsCmd .delete [2] cmdLine rest
      else if word = ascii "getknn" then optionsCmd .getKNN [3] cmdLine rest
      else if word = ascii "load" then optionsCmd .load [2] cmdLine rest
      else .ok (.error, [])

/-! ## The command language -/

/-- The words behind `desc`. -/
def descKinds : List (Bytes × VectordbCmd) :=
  [(ascii "table", .descTable), (ascii "partition", .descPartition),
    (ascii "replica", .descDescReplica), (ascii "engine", .descDescEngine)]

/-- The words behind `show`. -/
def showKinds : List (Bytes × VectordbCmd) :=
  [(ascii "tables", .showTables), (ascii "partitions", .showPartitions),
    (ascii "replicas", .showReplicas)]

/-- The words that stand alone. -/
def loneWords : List (Bytes × VectordbCmd) :=
  [(ascii "help", .help), (ascii "version", .version), (ascii "quit", .quit),
    (ascii "meta", .meta_)]

/-- The words that take options, and how many. -/
def optionWords : List (Bytes × VectordbCmd × List ℕ) :=
  [(ascii "put", .put, [3, 4]), (ascii "get", .get, [2]), (ascii "del", .delete, [2]),
    (ascii "getknn", .getKNN, [3]), (ascii "load", .load, [2])]

/-- The commands as they are shown by `example_cmdstr`: the tokens of a line, the command,
the word that leads `argv`, and the options. -/
inductive Command : List Bytes → VectordbCmd → Bytes → List Bytes → Prop
  | create {args : List Bytes} (some_ : args ≠ []) :
      Command (ascii "create" :: ascii "table" :: args) .createTable (cmdStr .createTable) args
  | build {args : List Bytes} (some_ : args ≠ []) :
      Command (ascii "build" :: ascii "index" :: args) .buildIndex (cmdStr .buildIndex) args
  | desc {kind name : Bytes} {cmd : VectordbCmd} (mem : (kind, cmd) ∈ descKinds) :
      Command [ascii "desc", kind, name] cmd (cmdStr cmd) [ascii "--name=" ++ name]
  | show_ {kind : Bytes} {cmd : VectordbCmd} (mem : (kind, cmd) ∈ showKinds) :
      Command [ascii "show", kind] cmd (cmdStr cmd) []
  | lone {word : Bytes} {cmd : VectordbCmd} (mem : (word, cmd) ∈ loneWords) :
      Command [word] cmd (cmdStr cmd) []
  | options {word : Bytes} {cmd : VectordbCmd} {counts : List ℕ} {options : List Bytes}
      (mem : (word, cmd, counts) ∈ optionWords) (count : options.length ∈ counts) :
      Command (word :: options) cmd word options

/-- The parser does with this line what the command language says, and reads no token
that is not there. -/
def Parses (cmdLine : Bytes) : Prop :=
  ∃ cmd argv, getCmd cmdLine = .ok (cmd, argv) ∧
    (cmd ≠ .error ↔ ∃ c word options, Command (split cmdLine space) c word options) ∧
    ∀ c word options, Command (split cmdLine space) c word options →
      cmd = c ∧ argv = word :: options

/-- A piece that is kept whole by `argv`. -/
def Whole (piece : Bytes) : Prop :=
  ∀ ch ∈ piece, ¬isSpace ch ∧ ch ≠ 0

/-- No `create` or `build` on its own, and options without white space and NUL. -/
structure Clear (cmdLine : Bytes) : Prop where
  create : split cmdLine space ≠ [ascii "create"]
  build : split cmdLine space ≠ [ascii "build"]
  options : ∀ c word options, Command (split cmdLine space) c word options →
    ∀ option ∈ options, Whole option

/-! ## Words and pieces -/

section Pieces

variable {line : Bytes} {ch : UInt8}

/-- Everything but the separators is in some piece. -/
theorem exists_mem_splitFrom {sep : UInt8} {temp rest : Bytes} (other : ch ≠ sep)
    (mem : ch ∈ temp ∨ ch ∈ rest) : ∃ piece ∈ splitFrom sep temp rest, ch ∈ piece := by
  induction rest generalizing temp with
  | nil =>
      have inside := mem.resolve_right List.not_mem_nil
      rw [splitFrom, if_neg (List.ne_nil_of_mem inside)]
      exact ⟨temp, List.mem_singleton_self _, inside⟩
  | cons first rest ih =>
      rw [splitFrom, List.mem_cons] at *
      split
      · rename_i separated
        have inside : ch ∈ temp ∨ ch ∈ rest :=
          mem.imp_right fun later => later.resolve_left fun same => other (same.trans separated)
        split
        · rename_i empty
          rw [empty] at inside
          exact ih inside
        · rcases inside with earlier | later
          · exact ⟨temp, List.mem_cons_self, earlier⟩
          · obtain ⟨piece, found, within⟩ := @ih [] (.inr later)
            exact ⟨piece, List.mem_cons_of_mem _ found, within⟩
      · refine ih ?_
        rcases mem with earlier | rfl | later
        · exact .inl (List.mem_append_left _ earlier)
        · exact .inl (List.mem_append_right _ (List.mem_singleton_self _))
        · exact .inr later

/-- Where the spaces are the only white space, the words are the pieces. -/
theorem wordsFrom_eq_splitFrom {temp rest : Bytes} (spaces : ∀ ch ∈ rest, isSpace ch → ch = space) :
    wordsFrom temp rest = splitFrom space temp rest := by
  induction rest generalizing temp with
  | nil => rfl
  | cons first rest ih =>
      rw [List.forall_mem_cons] at spaces
      have same : isSpace first = true ↔ first = space :=
        ⟨spaces.1, fun equal => by rw [equal]; rfl⟩
      simp only [wordsFrom, splitFrom, same, ih spaces.2]

theorem not_isSpace_of_mem_wordsFrom {temp rest word : Bytes} (visible : ∀ ch ∈ temp, ¬isSpace ch)
    (mem : word ∈ wordsFrom temp rest) : ∀ ch ∈ word, ¬isSpace ch := by
  have nothing : ∀ ch ∈ ([] : Bytes), ¬isSpace ch := fun _ mem => absurd mem List.not_mem_nil
  induction rest generalizing temp with
  | nil =>
      unfold wordsFrom at mem
      split at mem
      · exact absurd mem List.not_mem_nil
      · rw [List.mem_singleton.mp mem]
        exact visible
  | cons first rest ih =>
      unfold wordsFrom at mem
      split at mem
      · split at mem
        · exact ih nothing mem
        · rcases List.mem_cons.mp mem with rfl | later
          · exact visible
          · exact ih nothing later
      · rename_i other
        refine ih (List.forall_mem_append.mpr ⟨visible, ?_⟩) mem
        exact List.forall_mem_singleton.mpr other

theorem whole_of_mem_argv {arg : Bytes} (mem : arg ∈ convertStringToArgcArgv line) : Whole arg := by
  obtain ⟨word, found, rfl⟩ := List.mem_map.mp mem
  intro ch within
  have inside : ch ∈ word := (List.takeWhile_sublist _).subset within
  refine ⟨not_isSpace_of_mem_wordsFrom (by simp) found ch inside, ?_⟩
  simpa using List.mem_takeWhile_imp within

/-- The pieces of a line are its arguments if all of them are kept whole, and only then. -/
theorem argv_eq_split_iff :
    convertStringToArgcArgv line = split line space ↔ ∀ piece ∈ split line space, Whole piece := by
  constructor
  · intro same piece mem
    rw [← same] at mem
    exact whole_of_mem_argv mem
  · intro whole
    have spaces : ∀ ch ∈ line, isSpace ch → ch = space := by
      intro ch mem blank
      by_contra other
      obtain ⟨piece, found, inside⟩ := @exists_mem_splitFrom ch space [] line other (.inr mem)
      exact (whole piece found ch inside).1 blank
    rw [convertStringToArgcArgv, wordsFrom_eq_splitFrom spaces]
    have kept : ∀ piece ∈ split line space, cStr piece = id piece := fun piece mem =>
      cStr_eq_self fun ch inside => (whole piece mem ch inside).2
    exact (List.map_congr_left kept).trans (List.map_id _)

theorem split_mergeString {strs : List Bytes} (pieces : ∀ s ∈ strs, s ≠ [] ∧ ∀ ch ∈ s, ch ≠ space) :
    split (mergeString strs) space = strs := by
  induction strs with
  | nil => rfl
  | cons s strs ih =>
      rw [List.forall_mem_cons] at pieces
      have merged : mergeString (s :: strs) = s ++ space :: mergeString strs := by
        rw [mergeString, List.flatMap_cons, List.append_assoc]
        rfl
      rw [merged, split_cons pieces.1.2 pieces.1.1, ih pieces.2]

theorem mem_pieces {piece : Bytes} (mem : piece ∈ split line space) :
    piece ≠ [] ∧ ∀ ch ∈ piece, ch ≠ space :=
  ⟨(of_mem_split mem).1, fun ch inside => ((of_mem_split mem).2 ch inside).1⟩

end Pieces

/-! ## What `GetCmd` does -/

section Results

variable {line : Bytes} {c : VectordbCmd} {word : Bytes} {options : List Bytes}

theorem whole_of_all {piece : Bytes} (all : (piece.all fun ch => !isSpace ch && ch != 0) = true) :
    Whole piece := by
  intro ch mem
  simpa using List.all_eq_true.mp all ch mem

theorem cmdStr_whole (cmd : VectordbCmd) : Whole (cmdStr cmd) := by
  cases cmd <;> exact whole_of_all (by decide)

theorem cmdStr_ne_nil (cmd : VectordbCmd) : cmdStr cmd ≠ [] := by
  cases cmd <;> decide

theorem Whole.ne_space {piece : Bytes} (whole : Whole piece) : ∀ ch ∈ piece, ch ≠ space := by
  rintro ch mem rfl
  exact (whole space mem).1 rfl

/-- A line that is put together has the pieces that it should have. -/
theorem split_rebuilt {args : List Bytes} (pieces : ∀ s ∈ args, s ≠ [] ∧ ∀ ch ∈ s, ch ≠ space) :
    split (cmdStr c ++ space :: mergeString args) space = cmdStr c :: args := by
  rw [split_cons (cmdStr_whole c).ne_space (cmdStr_ne_nil c), split_mergeString pieces]

theorem split_named {name : Bytes} (plain : ∀ ch ∈ name, ch ≠ space) :
    split (cmdStr c ++ ascii " --name=" ++ name) space = [cmdStr c, ascii "--name=" ++ name] := by
  have option : ∀ ch ∈ ascii "--name=" ++ name, ch ≠ space :=
    List.forall_mem_append.mpr ⟨(whole_of_all (by decide)).ne_space, plain⟩
  have whole : cmdStr c ++ ascii " --name=" ++ name =
      cmdStr c ++ space :: (ascii "--name=" ++ name) := by
    rw [List.append_assoc]
    rfl
  rw [whole, split_cons (cmdStr_whole c).ne_space (cmdStr_ne_nil c),
    split_last option (List.append_ne_nil_of_left_ne_nil (by decide) _)]

/-- A command of the language is found, with the pieces of some line as its arguments. -/
theorem getCmd_of_command (command : Command (split line space) c word options) :
    ∃ rebuilt, getCmd line = .ok (c, convertStringToArgcArgv rebuilt) ∧
      split rebuilt space = word :: options := by
  generalize pieces : split line space = tokens at command
  have plain : ∀ piece ∈ tokens, piece ≠ [] ∧ ∀ ch ∈ piece, ch ≠ space := by
    rw [← pieces]
    exact fun piece mem => mem_pieces mem
  unfold getCmd
  rw [pieces]
  cases command with
  | create some_ =>
      refine ⟨cmdStr .createTable ++ space :: mergeString options, ?_, split_rebuilt fun s mem => ?_⟩
      · have both : ascii "table" = ascii "table" ∧ 0 < options.length :=
          ⟨rfl, List.length_pos_iff.mpr some_⟩
        exact if_pos both
      · exact plain s (List.mem_cons_of_mem _ (List.mem_cons_of_mem _ mem))
  | build some_ =>
      refine ⟨cmdStr .buildIndex ++ space :: mergeString options, ?_, split_rebuilt fun s mem => ?_⟩
      · have both : ascii "index" = ascii "index" ∧ 0 < options.length :=
          ⟨rfl, List.length_pos_iff.mpr some_⟩
        exact if_pos both
      · exact plain s (List.mem_cons_of_mem _ (List.mem_cons_of_mem _ mem))
  | @desc kind name _ mem =>
      have named := (plain name (by simp)).2
      refine ⟨cmdStr c ++ ascii " --name=" ++ name, ?_, split_named named⟩
      simp only [descKinds, List.mem_cons, List.not_mem_nil, or_false, Prod.mk.injEq] at mem
      rcases mem with ⟨rfl, rfl⟩ | ⟨rfl, rfl⟩ | ⟨rfl, rfl⟩ | ⟨rfl, rfl⟩ <;> rfl
  | show_ mem =>
      refine ⟨cmdStr c, ?_, split_last (cmdStr_whole c).ne_space (cmdStr_ne_nil c)⟩
      simp only [showKinds, List.mem_cons, List.not_mem_nil, or_false, Prod.mk.injEq] at mem
      rcases mem with ⟨rfl, rfl⟩ | ⟨rfl, rfl⟩ | ⟨rfl, rfl⟩ <;> rfl
  | lone mem =>
      refine ⟨cmdStr c, ?_, split_last (cmdStr_whole c).ne_space (cmdStr_ne_nil c)⟩
      simp only [loneWords, List.mem_cons, List.not_mem_nil, or_false, Prod.mk.injEq] at mem
      rcases mem with ⟨rfl, rfl⟩ | ⟨rfl, rfl⟩ | ⟨rfl, rfl⟩ | ⟨rfl, rfl⟩ <;> rfl
  | options mem count =>
      refine ⟨line, ?_, pieces⟩
      simp only [optionWords, List.mem_cons, List.not_mem_nil, or_false, Prod.mk.injEq] at mem
      rcases mem with ⟨rfl, rfl, rfl⟩ | ⟨rfl, rfl, rfl⟩ | ⟨rfl, rfl, rfl⟩ | ⟨rfl, rfl, rfl⟩ |
        ⟨rfl, rfl, rfl⟩ <;> exact if_pos count

theorem ne_error_of_command {tokens : List Bytes} (command : Command tokens c word options) :
    c ≠ .error := by
  cases command with
  | create _ => decide
  | build _ => decide
  | desc mem =>
      rintro rfl
      simp [descKinds] at mem
  | show_ mem =>
      rintro rfl
      simp [showKinds] at mem
  | lone mem =>
      rintro rfl
      simp [loneWords] at mem
  | options mem _ =>
      rintro rfl
      simp [optionWords] at mem

/-- What comes of these tokens: a command, an error, or a token that is not there. -/
inductive Outcome (tokens : List Bytes) (result : CmdResult) : Prop
  | command (c : VectordbCmd) (word : Bytes) (options : List Bytes)
      (command : Command tokens c word options)
  | rejected (same : result = .ok (.error, []))
  | missing (same : result = .error .token)
      (alone : tokens = [ascii "create"] ∨ tokens = [ascii "build"])

theorem outcome_arguments {first cmdArg2 : Bytes} {cmd : VectordbCmd} {rest : List Bytes}
    (alone : [first] = [ascii "create"] ∨ [first] = [ascii "build"])
    (commands : ∀ args : List Bytes, args ≠ [] →
      Command (first :: cmdArg2 :: args) cmd (cmdStr cmd) args) :
    Outcome (first :: rest) (argumentsCmd cmd cmdArg2 rest) := by
  cases rest with
  | nil => exact .missing rfl alone
  | cons arg2 args =>
      rw [argumentsCmd]
      split
      · rename_i both
        rw [both.1]
        exact .command _ _ _ (commands args (List.length_pos_iff.mp both.2))
      · exact .rejected rfl

theorem outcome_desc {rest : List Bytes} : Outcome (ascii "desc" :: rest) (descCmd rest) := by
  unfold descCmd
  split
  · split_ifs with table partition replica engine
    · exact .command .descTable _ _ (.desc (by rw [table]; decide))
    · exact .command .descPartition _ _ (.desc (by rw [partition]; decide))
    · exact .command .descDescReplica _ _ (.desc (by rw [replica]; decide))
    · exact .command .descDescEngine _ _ (.desc (by rw [engine]; decide))
    · exact .rejected rfl
  · exact .rejected rfl

theorem outcome_show {rest : List Bytes} : Outcome (ascii "show" :: rest) (showCmd rest) := by
  unfold showCmd
  split
  · split_ifs with tables partitions replicas
    · exact .command .showTables _ _ (.show_ (by rw [tables]; decide))
    · exact .command .showPartitions _ _ (.show_ (by rw [partitions]; decide))
    · exact .command .showReplicas _ _ (.show_ (by rw [replicas]; decide))
    · exact .rejected rfl
  · exact .rejected rfl

theorem outcome_lone {rest : List Bytes} (mem : (word, c) ∈ loneWords) :
    Outcome (word :: rest) (loneCmd c rest) := by
  unfold loneCmd
  split
  · rename_i none_
    rw [List.length_eq_zero_iff.mp none_]
    exact .command _ _ _ (.lone mem)
  · exact .rejected rfl

theorem outcome_options {rest : List Bytes} {counts : List ℕ}
    (mem : (word, c, counts) ∈ optionWords) :
    Outcome (word :: rest) (optionsCmd c counts line rest) := by
  unfold optionsCmd
  split
  · rename_i count
    exact .command _ _ _ (.options mem count)
  · exact .rejected rfl

theorem getCmd_outcome (line : Bytes) : Outcome (split line space) (getCmd line) := by
  unfold getCmd
  cases split line space with
  | nil => exact .rejected rfl
  | cons word rest =>
      dsimp only
      by_cases create : word = ascii "create"
      · rw [if_pos create, create]
        exact outcome_arguments (.inl rfl) fun args some_ => .create some_
      rw [if_neg create]
      by_cases build : word = ascii "build"
      · rw [if_pos build, build]
        exact outcome_arguments (.inr rfl) fun args some_ => .build some_
      rw [if_neg build]
      by_cases desc : word = ascii "desc"
      · rw [if_pos desc, desc]
        exact outcome_desc
      rw [if_neg desc]
      by_cases show_ : word = ascii "show"
      · rw [if_pos show_, show_]
        exact outcome_show
      rw [if_neg show_]
      by_cases help : word = ascii "help"
      · rw [if_pos help, help]
        exact outcome_lone (by decide)
      rw [if_neg help]
      by_cases version : word = ascii "version"
      · rw [if_pos version, version]
        exact outcome_lone (by decide)
      rw [if_neg version]
      by_cases quit : word = ascii "quit"
      · rw [if_pos quit, quit]
        exact outcome_lone (by decide)
      rw [if_neg quit]
      by_cases meta_ : word = ascii "meta"
      · rw [if_pos meta_, meta_]
        exact outcome_lone (by decide)
      rw [if_neg meta_]
      by_cases put : word = ascii "put"
      · rw [if_pos put, put]
        exact outcome_options (by decide)
      rw [if_neg put]
      by_cases get : word = ascii "get"
      · rw [if_pos get, get]
        exact outcome_options (by decide)
      rw [if_neg get]
      by_cases del : word = ascii "del"
      · rw [if_pos del, del]
        exact outcome_options (by decide)
      rw [if_neg del]
      by_cases getknn : word = ascii "getknn"
      · rw [if_pos getknn, getknn]
        exact outcome_options (by decide)
      rw [if_neg getknn]
      by_cases load : word = ascii "load"
      · rw [if_pos load, load]
        exact outcome_options (by decide)
      rw [if_neg load]
      exact .rejected rfl

end Results

/-! ## The language is accepted -/

theorem whole_of_command {tokens : List Bytes} {c : VectordbCmd} {word : Bytes}
    {options : List Bytes} (command : Command tokens c word options) : Whole word := by
  cases command with
  | create _ => exact cmdStr_whole _
  | build _ => exact cmdStr_whole _
  | desc _ => exact cmdStr_whole _
  | show_ _ => exact cmdStr_whole _
  | lone _ => exact cmdStr_whole _
  | options mem _ =>
      simp only [optionWords, List.mem_cons, List.not_mem_nil, or_false, Prod.mk.injEq] at mem
      rcases mem with ⟨rfl, -⟩ | ⟨rfl, -⟩ | ⟨rfl, -⟩ | ⟨rfl, -⟩ | ⟨rfl, -⟩ <;>
        exact whole_of_all (by decide)

/-- A line is parsed as its command unless it is a lone `create` or `build`, or one of its
options is split again or cut. -/
theorem parses_iff_clear (cmdLine : Bytes) : Parses cmdLine ↔ Clear cmdLine := by
  constructor
  · rintro ⟨cmd, argv, done, -, commands⟩
    have missing (alone : split cmdLine space = [ascii "create"] ∨
        split cmdLine space = [ascii "build"]) : False := by
      have failed : getCmd cmdLine = .error .token := by
        rcases alone with same | same <;> rw [getCmd, same] <;> rfl
      rw [failed] at done
      contradiction
    refine ⟨fun alone => missing (.inl alone), fun alone => missing (.inr alone), ?_⟩
    intro c word options command
    obtain ⟨rebuilt, found, pieces⟩ := getCmd_of_command command
    obtain ⟨rfl, arguments⟩ := commands c word options command
    rw [found] at done
    obtain ⟨-, same⟩ := Prod.mk.inj (Except.ok.inj done)
    rw [← same, ← pieces, argv_eq_split_iff, pieces] at arguments
    exact (List.forall_mem_cons.mp arguments).2
  · intro clear
    have arguments : ∀ c word options, Command (split cmdLine space) c word options →
        getCmd cmdLine = .ok (c, word :: options) := by
      intro c word options command
      obtain ⟨rebuilt, found, pieces⟩ := getCmd_of_command command
      rw [found, argv_eq_split_iff.mpr, pieces]
      rw [pieces]
      exact List.forall_mem_cons.mpr ⟨whole_of_command command,
        clear.options c word options command⟩
    rcases getCmd_outcome cmdLine with ⟨c, word, options, command⟩ | same | ⟨-, alone⟩
    · refine ⟨c, word :: options, arguments c word options command,
        iff_of_true (ne_error_of_command command) ⟨c, word, options, command⟩, ?_⟩
      intro c' word' options' other
      have same := (arguments c word options command).symm.trans
        (arguments c' word' options' other)
      exact Prod.mk.inj (Except.ok.inj same)
    · have none_ : ¬∃ c word options, Command (split cmdLine space) c word options := by
        rintro ⟨c, word, options, command⟩
        rw [arguments c word options command] at same
        exact ne_error_of_command command (Prod.mk.inj (Except.ok.inj same)).1
      refine ⟨.error, [], same, iff_of_false (fun ne => ne rfl) none_, ?_⟩
      exact fun c word options command => absurd ⟨c, word, options, command⟩ none_
    · exact (alone.elim clear.create clear.build).elim

/-- The second word of `create` is read without being there. -/
theorem not_parses : ¬∀ cmdLine, Parses cmdLine := by
  intro all
  obtain ⟨cmd, argv, done, -⟩ := all (ascii "create")
  have failed : getCmd (ascii "create") = .error .token := by decide +kernel
  rw [failed] at done
  contradiction

end Vraft.VectorDb
