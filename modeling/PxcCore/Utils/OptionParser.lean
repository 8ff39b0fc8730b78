import PxcCore.Utils.Json.Parser

/-!
# OptionParser

`OptionParser.cpp`: command line options with callbacks.

A word is the bytes of a C string in front of its zero, so `arg[i]?` is nothing where the source
reads the zero, and the address `arg + i` is that of what remains.  Callbacks and checks work on a
state.
-/

namespace PxcCore

open Json (chr)

namespace OptionParser

variable {σ : Type}

/-! ## Definitions -/

/-- An error. -/
structure Status where
  code : ℤ
  message : List UInt8
deriving DecidableEq

/-- `Option::Type` -/
inductive OptType where
  | noArg
  | arg
deriving DecidableEq

/-- `Option`, without the texts for the user. -/
structure Opt (σ : Type) where
  type : OptType
  shortKey : UInt8
  longKey : List UInt8
  argCallback : List UInt8 → ExceptT Status (StateM σ) Unit

/-- What ends `run_impl` early. -/
inductive Stop where
  /-- A read of `argv` at or beyond `argc`. -/
  | outOfRange
  | status (error : Status)
deriving DecidableEq

end OptionParser

open OptionParser in
structure OptionParser (σ : Type) where
  options : List (Opt σ)
  checks : List (ExceptT Status (StateM σ) Unit)

namespace OptionParser

variable {σ : Type}

/-- `TRY_STATUS` -/
def tryStatus {β : Type} (x : ExceptT Status (StateM σ) β) : ExceptT Stop (StateM σ) β :=
  ExceptT.adapt Stop.status x

/-- `Status::Error` -/
def error {β : Type} (message : String) : ExceptT Status (StateM σ) β :=
  throw ⟨0, message.toList.map chr⟩

/-- An error about the option with a key. -/
def keyError {β : Type} (key : List UInt8) (what : String) : ExceptT Status (StateM σ) β :=
  throw ⟨0, "Option \"".toList.map chr ++ key ++ ("\" " ++ what).toList.map chr⟩

/-- `argv[arg_pos]` -/
def readArg (argv : List (List UInt8)) (argPos : ℕ) : ExceptT Stop (StateM σ) (List UInt8) :=
  match argv[argPos]? with
  | some arg => pure arg
  | none => throw .outOfRange

/-- The options by a key, if it is not empty.  The last one of a key counts. -/
def keyOptions {κ : Type} [DecidableEq κ] (key : Opt σ → κ) (empty : κ) (options : List (Opt σ)) :
    κ → Option (Opt σ) :=
  options.foldl (fun m opt ↦ if key opt ≠ empty then Function.update m (key opt) (some opt) else m)
    fun _ ↦ none

/-- `short_options` -/
def shortOptions (p : OptionParser σ) : UInt8 → Option (Opt σ) :=
  keyOptions (·.shortKey) 0 p.options

/-- `long_options` -/
def longOptions (p : OptionParser σ) : List UInt8 → Option (Opt σ) :=
  keyOptions (·.longKey) [] p.options

/-- A long option, with the position of the last word that is used. -/
def runLong (p : OptionParser σ) (argv : List (List UInt8)) (arg : List UInt8) (argPos : ℕ) :
    ExceptT Stop (StateM σ) {pos : ℕ // argPos ≤ pos} :=
  let equalPos := (arg.drop 2).idxOf? (chr '=')
  let longArg := match equalPos with
    | some equalPos => (arg.drop 2).take equalPos
    | none => arg.drop 2
  match p.longOptions longArg with
  | none => tryStatus (keyError longArg "is unrecognized")
  | some option =>
    match option.type, equalPos with
    | .noArg, some _ => tryStatus (keyError longArg "must not have an argument")
    | .noArg, none => do
      tryStatus (option.argCallback [])
      return ⟨argPos, le_rfl⟩
    | .arg, some equalPos => do
      tryStatus (option.argCallback ((arg.drop 2).drop (equalPos + 1)))
      return ⟨argPos, le_rfl⟩
    | .arg, none =>
      if argPos + 1 = argv.length then tryStatus (keyError longArg "requires an argument")
      else do
        let parameter ← readArg argv (argPos + 1)
        tryStatus (option.argCallback parameter)
        return ⟨argPos + 1, argPos.le_succ⟩

/-- The loop over the short options of a word, from some address on. -/
def runShort (p : OptionParser σ) (argv : List (List UInt8)) (argPos : ℕ) :
    List UInt8 → ExceptT Stop (StateM σ) {pos : ℕ // argPos ≤ pos}
  | [] => pure ⟨argPos, le_rfl⟩
  | c :: arg =>
    match p.shortOptions c with
    | none => tryStatus (keyError [c] "is unrecognized")
    | some option =>
      match option.type with
      | .noArg => do
        tryStatus (option.argCallback [])
        p.runShort argv argPos arg
      | .arg =>
        -- in both cases the word ends after this
        if arg = [] then
          if argPos + 1 = argv.length then tryStatus (keyError [c] "requires an argument")
          else do
            let parameter ← readArg argv (argPos + 1)
            tryStatus (option.argCallback parameter)
            return ⟨argPos + 1, argPos.le_succ⟩
        else do
          tryStatus (option.argCallback arg)
          return ⟨argPos, le_rfl⟩

/-- The loop after `--`. -/
def runRest (argv : List (List UInt8)) (argPos : ℕ) (nonOptions : List (List UInt8)) :
    ExceptT Stop (StateM σ) (List (List UInt8)) :=
  if argPos + 1 < argv.length then do
    let arg ← readArg argv (argPos + 1)
    runRest argv (argPos + 1) (nonOptions ++ [arg])
  else return nonOptions
termination_by argv.length - argPos

/-- The loop over the words. -/
def runArgs (p : OptionParser σ) (argv : List (List UInt8)) (argPos : ℕ)
    (nonOptions : List (List UInt8)) : ExceptT Stop (StateM σ) (List (List UInt8)) :=
  if argPos < argv.length then do
    let arg ← readArg argv argPos
    if arg[0]? ≠ some (chr '-') ∨ arg[1]? = none then
      p.runArgs argv (argPos + 1) (nonOptions ++ [arg])
    else if arg[1]? = some (chr '-') ∧ arg[2]? = none then runRest argv argPos nonOptions
    else if arg[1]? = some (chr '-') then do
      let ⟨pos, _⟩ ← p.runLong argv arg argPos
      p.runArgs argv (pos + 1) nonOptions
    else do
      let ⟨pos, _⟩ ← p.runShort argv argPos (arg.drop 1)
      p.runArgs argv (pos + 1) nonOptions
  else return nonOptions
termination_by argv.length - argPos

/-- `run_impl`, where `argc` is the length of `argv`. -/
def runImpl (p : OptionParser σ) (argv : List (List UInt8)) (expectedNonOptionCount : ℤ) :
    ExceptT Stop (StateM σ) (List (List UInt8)) := do
  let nonOptions ← p.runArgs argv 1 []
  if 0 ≤ expectedNonOptionCount ∧ nonOptions.length ≠ expectedNonOptionCount.toNat then
    if expectedNonOptionCount = 0 then
      tryStatus (error "Unexpected non-option parameters specified")
    else if expectedNonOptionCount.toNat < nonOptions.length then
      tryStatus (error "Too many non-option parameters specified")
    else tryStatus (error "Too few non-option parameters specified")
  else do
    p.checks.forM tryStatus
    return nonOptions

/-! ## Command lines -/

/-- What is on a command line. -/
inductive Item (σ : Type) where
  | option (opt : Opt σ) (argument : List UInt8)
  | flag (opt : Opt σ)
  | nonOption (word : List UInt8)

/-- The callbacks of the options, one after another, up to the first that fails. -/
def calls : List (Item σ) → ExceptT Status (StateM σ) Unit
  | [] => pure ()
  | .option opt argument :: items => do
    opt.argCallback argument
    calls items
  | .flag opt :: items => do
    opt.argCallback []
    calls items
  | .nonOption _ :: items => calls items

def nonOptions : List (Item σ) → List (List UInt8)
  | [] => []
  | .option _ _ :: items => nonOptions items
  | .flag _ :: items => nonOptions items
  | .nonOption word :: items => word :: nonOptions items

/-- An option of this type that has a short key. -/
def HasShort (options : List (Opt σ)) (type : OptType) (opt : Opt σ) : Prop :=
  opt ∈ options ∧ opt.shortKey ≠ 0 ∧ opt.type = type

/-- An option of this type that has a long key. -/
def HasLong (options : List (Opt σ)) (type : OptType) (opt : Opt σ) : Prop :=
  opt ∈ options ∧ opt.longKey ≠ [] ∧ opt.type = type

/-- The words are a spelling of the items. -/
inductive Spells (options : List (Opt σ)) : List (Item σ) → List (List UInt8) → Prop where
  | nil : Spells options [] []
  | word {w : List UInt8} {items : List (Item σ)} {words : List (List UInt8)} :
    w[0]? ≠ some (chr '-') ∨ w = [chr '-'] → Spells options items words →
    Spells options (.nonOption w :: items) (w :: words)
  | rest {words : List (List UInt8)} :
    Spells options (words.map .nonOption) ([chr '-', chr '-'] :: words)
  | longFlag {opt : Opt σ} {items : List (Item σ)} {words : List (List UInt8)} :
    HasLong options .noArg opt → Spells options items words →
    Spells options (.flag opt :: items) ((chr '-' :: chr '-' :: opt.longKey) :: words)
  | longEqual {opt : Opt σ} {a : List UInt8} {items : List (Item σ)} {words : List (List UInt8)} :
    HasLong options .arg opt → Spells options items words →
    Spells options (.option opt a :: items)
      ((chr '-' :: chr '-' :: (opt.longKey ++ chr '=' :: a)) :: words)
  | longNext {opt : Opt σ} {a : List UInt8} {items : List (Item σ)} {words : List (List UInt8)} :
    HasLong options .arg opt → Spells options items words →
    Spells options (.option opt a :: items) ((chr '-' :: chr '-' :: opt.longKey) :: a :: words)
  | flags {opts : List (Opt σ)} {items : List (Item σ)} {words : List (List UInt8)} :
    opts ≠ [] → (∀ opt ∈ opts, HasShort options .noArg opt) → Spells options items words →
    Spells options (opts.map .flag ++ items) ((chr '-' :: opts.map Opt.shortKey) :: words)
  | attached {opts : List (Opt σ)} {opt : Opt σ} {a : List UInt8} {items : List (Item σ)}
    {words : List (List UInt8)} : (∀ opt ∈ opts, HasShort options .noArg opt) →
    HasShort options .arg opt → a ≠ [] → Spells options items words →
    Spells options (opts.map .flag ++ .option opt a :: items)
      ((chr '-' :: (opts.map Opt.shortKey ++ opt.shortKey :: a)) :: words)
  | next {opts : List (Opt σ)} {opt : Opt σ} {a : List UInt8} {items : List (Item σ)}
    {words : List (List UInt8)} : (∀ opt ∈ opts, HasShort options .noArg opt) →
    HasShort options .arg opt → Spells options items words →
    Spells options (opts.map .flag ++ .option opt a :: items)
      ((chr '-' :: (opts.map Opt.shortKey ++ [opt.shortKey])) :: a :: words)

/-- Each key is that of one option, and keys can be told from what is around them. -/
structure Distinct (options : List (Opt σ)) : Prop where
  short : options.Pairwise fun a b ↦ a.shortKey ≠ 0 → a.shortKey ≠ b.shortKey
  long : options.Pairwise fun a b ↦ a.longKey ≠ [] → a.longKey ≠ b.longKey
  dash : ∀ opt ∈ options, opt.shortKey ≠ chr '-'
  equal : ∀ opt ∈ options, chr '=' ∉ opt.longKey

/-! ## Keys -/

section Keys

variable {κ : Type} [DecidableEq κ] {key : Opt σ → κ} {empty : κ} {options : List (Opt σ)}
  {opt : Opt σ} {k : κ}

theorem keyOptions_append (options : List (Opt σ)) (opt : Opt σ) :
    keyOptions key empty (options ++ [opt]) =
      if key opt ≠ empty then Function.update (keyOptions key empty options) (key opt) (some opt)
      else keyOptions key empty options := by
  simp only [keyOptions, List.foldl_append, List.foldl_cons, List.foldl_nil]

theorem keyOptions_some (h : keyOptions key empty options k = some opt) :
    opt ∈ options ∧ key opt = k ∧ key opt ≠ empty := by
  induction options using List.reverseRecOn with
  | nil => cases h
  | append_singleton options o ih =>
    rw [keyOptions_append] at h
    split at h
    case isTrue ho =>
      by_cases hk : k = key o
      · subst hk
        rw [Function.update_self] at h
        obtain rfl := Option.some.inj h
        exact ⟨by simp, rfl, ho⟩
      · rw [Function.update_of_ne hk] at h
        obtain ⟨hmem, hkey⟩ := ih h
        exact ⟨List.mem_append_left _ hmem, hkey⟩
    case isFalse =>
      obtain ⟨hmem, hkey⟩ := ih h
      exact ⟨List.mem_append_left _ hmem, hkey⟩

theorem keyOptions_of_mem (hd : options.Pairwise fun a b ↦ key a ≠ empty → key a ≠ key b)
    (h : opt ∈ options) (hkey : key opt ≠ empty) :
    keyOptions key empty options (key opt) = some opt := by
  induction options using List.reverseRecOn with
  | nil => cases h
  | append_singleton options o ih =>
    obtain ⟨hd, -, hlast⟩ := List.pairwise_append.1 hd
    rw [keyOptions_append]
    rcases List.mem_append.1 h with h | h
    · have hne := hlast opt h o (by simp) hkey
      split
      · rw [Function.update_of_ne hne, ih hd h]
      · exact ih hd h
    · obtain rfl := List.mem_singleton.1 h
      rw [if_pos hkey, Function.update_self]

end Keys

variable {p : OptionParser σ} {opt : Opt σ} {type : OptType} {argv words : List (List UInt8)}
  {argPos : ℕ} {arg : List UInt8} {acc : List (List UInt8)}

theorem shortOptions_of_hasShort (hp : Distinct p.options) (h : HasShort p.options type opt) :
    p.shortOptions opt.shortKey = some opt :=
  keyOptions_of_mem hp.short h.1 h.2.1

theorem longOptions_of_hasLong (hp : Distinct p.options) (h : HasLong p.options type opt) :
    p.longOptions opt.longKey = some opt :=
  keyOptions_of_mem hp.long h.1 h.2.1

/-! ## What is called -/

section Calls

variable {ε β γ : Type} {x : ExceptT ε (StateM σ) β} {s s' : σ}

theorem run_bind_ok {b : β} (h : x.run.run s = (.ok b, s')) (f : β → ExceptT ε (StateM σ) γ) :
    (x >>= f).run.run s = (f b).run.run s' := by
  simp only [ExceptT.run_bind, StateT.run_bind, h]
  rfl

theorem run_bind_error {e : ε} (h : x.run.run s = (.error e, s'))
    (f : β → ExceptT ε (StateM σ) γ) : (x >>= f).run.run s = (.error e, s') := by
  simp only [ExceptT.run_bind, StateT.run_bind, h]
  rfl

theorem run_tryStatus (x : ExceptT Status (StateM σ) β) (s : σ) :
    (tryStatus x).run.run s = ((x.run.run s).1.mapError Stop.status, (x.run.run s).2) := by
  simp only [tryStatus, ExceptT.run_adapt, StateT.run_map]
  rfl

theorem tryStatus_pure (b : β) : tryStatus (σ := σ) (pure b) = pure b := rfl

theorem tryStatus_bind (x : ExceptT Status (StateM σ) β) (f : β → ExceptT Status (StateM σ) γ) :
    tryStatus (x >>= f) = tryStatus x >>= fun b ↦ tryStatus (f b) := by
  apply ExceptT.ext
  simp only [tryStatus, ExceptT.run_adapt, ExceptT.run_bind, map_bind, bind_map_left]
  refine bind_congr fun r ↦ ?_
  cases r <;> rfl

theorem calls_append (items items' : List (Item σ)) :
    calls (items ++ items') = calls items >>= fun _ ↦ calls items' := by
  induction items with
  | nil => simp [calls]
  | cons item items ih => cases item <;> simp [calls, ih]

theorem nonOptions_append (items items' : List (Item σ)) :
    nonOptions (items ++ items') = nonOptions items ++ nonOptions items' := by
  induction items with
  | nil => rfl
  | cons item items ih => cases item <;> simp [nonOptions, ih]

@[simp] theorem nonOptions_flags (opts : List (Opt σ)) : nonOptions (opts.map .flag) = [] := by
  induction opts with
  | nil => rfl
  | cons opt opts ih => exact ih

@[simp] theorem nonOptions_words (words : List (List UInt8)) :
    nonOptions (words.map (.nonOption : _ → Item σ)) = words := by
  induction words with
  | nil => rfl
  | cons word words ih => simp [nonOptions, ih]

@[simp] theorem calls_words (words : List (List UInt8)) :
    calls (words.map (.nonOption : _ → Item σ)) = pure () := by
  induction words with
  | nil => rfl
  | cons word words ih => exact ih

end Calls

/-! ## Words -/

theorem drop_eq_cons {w : List UInt8} (h : argv.drop argPos = w :: words) :
    argPos < argv.length ∧ argv[argPos]? = some w ∧ argv.drop (argPos + 1) = words := by
  have hlt : argPos < argv.length := by
    by_contra hge
    rw [List.drop_eq_nil_of_le (by omega)] at h
    cases h
  rw [List.drop_eq_getElem_cons hlt] at h
  obtain ⟨hw, hwords⟩ := List.cons.inj h
  exact ⟨hlt, by rw [List.getElem?_eq_getElem hlt, hw], hwords⟩

theorem readArg_of_drop {w : List UInt8} (h : argv.drop argPos = w :: words) :
    (readArg argv argPos : ExceptT Stop (StateM σ) _) = pure w := by
  rw [readArg, (drop_eq_cons h).2.1]

theorem runRest_of_drop (h : argv.drop (argPos + 1) = words) :
    (runRest argv argPos acc : ExceptT Stop (StateM σ) _) = pure (acc ++ words) := by
  induction words generalizing argPos acc with
  | nil =>
    have hge := List.drop_eq_nil_iff.1 h
    rw [runRest, if_neg (by omega), List.append_nil]
  | cons w words ih =>
    obtain ⟨hlt, -, hwords⟩ := drop_eq_cons h
    rw [runRest, if_pos hlt, readArg_of_drop h, pure_bind, ih hwords, List.append_assoc]
    rfl

theorem runArgs_nil (h : argv.drop argPos = []) : p.runArgs argv argPos acc = pure acc := by
  rw [runArgs, if_neg (by simpa using h)]

theorem runArgs_word {w : List UInt8} (h : argv.drop argPos = w :: words)
    (hw : w[0]? ≠ some (chr '-') ∨ w = [chr '-']) :
    p.runArgs argv argPos acc = p.runArgs argv (argPos + 1) (acc ++ [w]) := by
  have hw' : w[0]? ≠ some (chr '-') ∨ w[1]? = none := hw.imp_right (by rintro rfl; rfl)
  rw [runArgs, if_pos (drop_eq_cons h).1, readArg_of_drop h, pure_bind, if_pos hw']

theorem runArgs_rest (h : argv.drop argPos = [chr '-', chr '-'] :: words) :
    p.runArgs argv argPos acc = pure (acc ++ words) := by
  rw [runArgs, if_pos (drop_eq_cons h).1, readArg_of_drop h, pure_bind, if_neg (by simp),
    if_pos (by simp), runRest_of_drop (drop_eq_cons h).2.2]

theorem runArgs_long {key : List UInt8} (hkey : key ≠ [])
    (h : argv.drop argPos = (chr '-' :: chr '-' :: key) :: words) :
    p.runArgs argv argPos acc = (p.runLong argv (chr '-' :: chr '-' :: key) argPos >>=
      fun pos ↦ p.runArgs argv (pos + 1) acc) := by
  obtain ⟨c, key, rfl⟩ := List.exists_cons_of_ne_nil hkey
  rw [runArgs, if_pos (drop_eq_cons h).1, readArg_of_drop h, pure_bind, if_neg (by simp),
    if_neg (by simp), if_pos (by simp)]

theorem runArgs_short {c : UInt8} {group : List UInt8} (hc : c ≠ chr '-')
    (h : argv.drop argPos = (chr '-' :: c :: group) :: words) :
    p.runArgs argv argPos acc = (p.runShort argv argPos (c :: group) >>=
      fun pos ↦ p.runArgs argv (pos + 1) acc) := by
  rw [runArgs, if_pos (drop_eq_cons h).1, readArg_of_drop h, pure_bind, if_neg (by simp),
    if_neg (by simp [hc]), if_neg (by simp [hc])]
  rfl

theorem idxOf?_equal {key a : List UInt8} (h : chr '=' ∉ key) :
    (key ++ chr '=' :: a).idxOf? (chr '=') = some key.length := by
  refine List.idxOf?_eq_some_iff.2 ⟨by simp, by simp, fun j hj ↦ ?_⟩
  rw [List.getElem_append_left hj]
  exact ne_of_mem_of_not_mem (List.getElem_mem hj) h

/-! ## Spelled command lines -/

theorem runLong_flag (hp : Distinct p.options) (ho : HasLong p.options .noArg opt) :
    p.runLong argv (chr '-' :: chr '-' :: opt.longKey) argPos =
      tryStatus (opt.argCallback []) >>= fun _ ↦ pure ⟨argPos, le_rfl⟩ := by
  have hidx := List.idxOf?_eq_none_iff.2 (hp.equal opt ho.1)
  simp only [runLong, List.drop_succ_cons, List.drop_zero, hidx, longOptions_of_hasLong hp ho,
    ho.2.2]

theorem runLong_equal (hp : Distinct p.options) (ho : HasLong p.options .arg opt)
    (a : List UInt8) :
    p.runLong argv (chr '-' :: chr '-' :: (opt.longKey ++ chr '=' :: a)) argPos =
      tryStatus (opt.argCallback a) >>= fun _ ↦ pure ⟨argPos, le_rfl⟩ := by
  have hidx := idxOf?_equal (a := a) (hp.equal opt ho.1)
  have hdrop : (opt.longKey ++ chr '=' :: a).drop (opt.longKey.length + 1) = a := by
    simp [List.drop_append]
  simp only [runLong, List.drop_succ_cons, List.drop_zero, hidx, List.take_left,
    longOptions_of_hasLong hp ho, ho.2.2, hdrop]

theorem runLong_next (hp : Distinct p.options) (ho : HasLong p.options .arg opt)
    {a : List UInt8} (h : argv.drop (argPos + 1) = a :: words) :
    p.runLong argv (chr '-' :: chr '-' :: opt.longKey) argPos =
      tryStatus (opt.argCallback a) >>= fun _ ↦ pure ⟨argPos + 1, argPos.le_succ⟩ := by
  have hidx := List.idxOf?_eq_none_iff.2 (hp.equal opt ho.1)
  have hne : argPos + 1 ≠ argv.length := (drop_eq_cons h).1.ne
  simp only [runLong, List.drop_succ_cons, List.drop_zero, hidx, longOptions_of_hasLong hp ho,
    ho.2.2, if_neg hne, readArg_of_drop h, pure_bind]

theorem runShort_flags (hp : Distinct p.options) {opts : List (Opt σ)}
    (ho : ∀ opt ∈ opts, HasShort p.options .noArg opt) (group : List UInt8) :
    p.runShort argv argPos (opts.map Opt.shortKey ++ group) =
      tryStatus (calls (opts.map .flag)) >>= fun _ ↦ p.runShort argv argPos group := by
  induction opts with
  | nil => simp [calls, tryStatus_pure]
  | cons opt opts ih =>
    have hopt := ho opt (by simp)
    simp only [List.map_cons, List.cons_append, runShort, shortOptions_of_hasShort hp hopt,
      hopt.2.2, calls, tryStatus_bind, bind_assoc, ih fun o h ↦ ho o (List.mem_cons_of_mem _ h)]

theorem runShort_attached (hp : Distinct p.options) (ho : HasShort p.options .arg opt)
    {a : List UInt8} (ha : a ≠ []) :
    p.runShort argv argPos (opt.shortKey :: a) =
      tryStatus (opt.argCallback a) >>= fun _ ↦ pure ⟨argPos, le_rfl⟩ := by
  simp only [runShort, shortOptions_of_hasShort hp ho, ho.2.2, if_neg ha]

theorem runShort_next (hp : Distinct p.options) (ho : HasShort p.options .arg opt)
    {a : List UInt8} (h : argv.drop (argPos + 1) = a :: words) :
    p.runShort argv argPos [opt.shortKey] =
      tryStatus (opt.argCallback a) >>= fun _ ↦ pure ⟨argPos + 1, argPos.le_succ⟩ := by
  have hne : argPos + 1 ≠ argv.length := (drop_eq_cons h).1.ne
  simp only [runShort, shortOptions_of_hasShort hp ho, ho.2.2, if_true, if_neg hne,
    readArg_of_drop h, pure_bind]

/-- A word that starts with a short option is no long one. -/
theorem runArgs_group (hp : Distinct p.options) {opts : List (Opt σ)} {group : List UInt8}
    (ho : ∀ opt ∈ opts, opt ∈ p.options) (hne : opts ≠ [])
    (h : argv.drop argPos = (chr '-' :: (opts.map Opt.shortKey ++ group)) :: words) :
    p.runArgs argv argPos acc = (p.runShort argv argPos (opts.map Opt.shortKey ++ group) >>=
      fun pos ↦ p.runArgs argv (pos + 1) acc) := by
  obtain ⟨opt, opts, rfl⟩ := List.exists_cons_of_ne_nil hne
  exact runArgs_short (hp.dash opt (ho opt (by simp))) h

theorem runArgs_flags (hp : Distinct p.options) {opts : List (Opt σ)} (hne : opts ≠ [])
    (ho : ∀ opt ∈ opts, HasShort p.options .noArg opt)
    (h : argv.drop argPos = (chr '-' :: opts.map Opt.shortKey) :: words) :
    p.runArgs argv argPos acc =
      tryStatus (calls (opts.map .flag)) >>= fun _ ↦ p.runArgs argv (argPos + 1) acc := by
  rw [← List.append_nil (opts.map _)] at h
  rw [runArgs_group hp (fun o ho' ↦ (ho o ho').1) hne h, runShort_flags hp ho, bind_assoc]
  simp only [runShort, pure_bind]

/-- The option that a group of short options ends with. -/
theorem runArgs_last (hp : Distinct p.options) {opts : List (Opt σ)} {group : List UInt8}
    (ho : ∀ opt ∈ opts, HasShort p.options .noArg opt) (hopt : HasShort p.options .arg opt)
    (h : argv.drop argPos =
      (chr '-' :: (opts.map Opt.shortKey ++ opt.shortKey :: group)) :: words) :
    p.runArgs argv argPos acc = tryStatus (calls (opts.map .flag)) >>= fun _ ↦
      p.runShort argv argPos (opt.shortKey :: group) >>=
        fun pos ↦ p.runArgs argv (pos + 1) acc := by
  have hmem : ∀ o ∈ opts ++ [opt], o ∈ p.options := by
    intro o ho'
    rcases List.mem_append.1 ho' with ho' | ho'
    · exact (ho o ho').1
    · exact List.mem_singleton.1 ho' ▸ hopt.1
  have hgroup : opts.map Opt.shortKey ++ opt.shortKey :: group =
      (opts ++ [opt]).map Opt.shortKey ++ group := by simp
  rw [hgroup] at h
  rw [runArgs_group hp hmem (by simp) h, ← hgroup, runShort_flags hp ho, bind_assoc]

theorem runArgs_spells (hp : Distinct p.options) {items : List (Item σ)}
    (hs : Spells p.options items words) (h : argv.drop argPos = words) :
    p.runArgs argv argPos acc =
      tryStatus (calls items) >>= fun _ ↦ pure (acc ++ nonOptions items) := by
  induction hs generalizing argPos acc with
  | nil => simp [runArgs_nil h, calls, nonOptions, tryStatus_pure]
  | word hw _ ih =>
    rw [runArgs_word h hw, ih (drop_eq_cons h).2.2]
    simp [calls, nonOptions]
  | rest => simp [runArgs_rest h, tryStatus_pure]
  | longFlag ho _ ih =>
    rw [runArgs_long ho.2.1 h, runLong_flag hp ho]
    simp [calls, nonOptions, tryStatus_bind, ih (drop_eq_cons h).2.2]
  | longEqual ho _ ih =>
    rw [runArgs_long (by simp) h, runLong_equal hp ho]
    simp [calls, nonOptions, tryStatus_bind, ih (drop_eq_cons h).2.2]
  | longNext ho _ ih =>
    have hnext := (drop_eq_cons h).2.2
    rw [runArgs_long ho.2.1 h, runLong_next hp ho hnext]
    simp [calls, nonOptions, tryStatus_bind, ih (drop_eq_cons hnext).2.2]
  | flags hne ho _ ih =>
    rw [runArgs_flags hp hne ho h]
    simp [calls_append, nonOptions_append, tryStatus_bind, ih (drop_eq_cons h).2.2]
  | attached ho hopt ha _ ih =>
    rw [runArgs_last hp ho hopt h, runShort_attached hp hopt ha]
    simp [calls, calls_append, nonOptions, nonOptions_append, tryStatus_bind,
      ih (drop_eq_cons h).2.2]
  | next ho hopt _ ih =>
    have hnext := (drop_eq_cons h).2.2
    rw [runArgs_last hp ho hopt h, runShort_next hp hopt hnext]
    simp [calls, calls_append, nonOptions, nonOptions_append, tryStatus_bind,
      ih (drop_eq_cons hnext).2.2]

/-! ## Other command lines -/

/-- Whatever the state is, this ends with an error. -/
def Fails {β : Type} (x : ExceptT Stop (StateM σ) β) : Prop :=
  ∀ s, ∃ e, (x.run.run s).1 = .error (.status e)

section Fails

variable {β γ : Type}

theorem fails_throw (e : Status) : Fails (tryStatus (throw e : ExceptT Status (StateM σ) β)) :=
  fun _ ↦ ⟨e, rfl⟩

theorem Fails.bind {x : ExceptT Stop (StateM σ) β} (h : Fails x)
    (f : β → ExceptT Stop (StateM σ) γ) : Fails (x >>= f) := by
  intro s
  obtain ⟨e, he⟩ := h s
  exact ⟨e, congrArg Prod.fst (run_bind_error (Prod.ext he rfl) f)⟩

theorem fails_bind (x : ExceptT Status (StateM σ) β) {f : β → ExceptT Stop (StateM σ) γ}
    (h : ∀ b, Fails (f b)) : Fails (tryStatus x >>= f) := by
  intro s
  have hx := run_tryStatus x s
  cases hr : (x.run.run s).1 with
  | error e =>
    rw [hr] at hx
    exact ⟨e, congrArg Prod.fst (run_bind_error hx f)⟩
  | ok b =>
    rw [hr] at hx
    rw [run_bind_ok hx]
    exact h b _

end Fails

theorem drop_of_ne (hlt : argPos < argv.length) (hne : argPos + 1 ≠ argv.length) :
    ∃ a words, argv.drop (argPos + 1) = a :: words :=
  ⟨_, _, List.drop_eq_getElem_cons (by omega)⟩

theorem runLong_or_fails (hlt : argPos < argv.length) (key : List UInt8) :
    Fails (p.runLong argv (chr '-' :: chr '-' :: key) argPos) ∨
      (∃ opt, HasLong p.options .noArg opt ∧ key = opt.longKey) ∨
      (∃ opt a, HasLong p.options .arg opt ∧ key = opt.longKey ++ chr '=' :: a) ∨
      ∃ opt a words, HasLong p.options .arg opt ∧ key = opt.longKey ∧
        argv.drop (argPos + 1) = a :: words := by
  simp only [runLong, List.drop_succ_cons, List.drop_zero]
  cases hidx : key.idxOf? (chr '=') with
  | none =>
    cases hopt : p.longOptions key with
    | none => exact .inl (fails_throw _)
    | some opt =>
      obtain ⟨hmem, rfl, hne⟩ := keyOptions_some hopt
      cases htype : opt.type with
      | noArg => exact .inr (.inl ⟨opt, ⟨hmem, hne, htype⟩, rfl⟩)
      | arg =>
        by_cases hend : argPos + 1 = argv.length
        · simp only [htype, if_pos hend]
          exact .inl (fails_throw _)
        · obtain ⟨a, words, ha⟩ := drop_of_ne hlt hend
          exact .inr (.inr (.inr ⟨opt, a, words, ⟨hmem, hne, htype⟩, rfl, ha⟩))
  | some i =>
    cases hopt : p.longOptions (key.take i) with
    | none => exact .inl (fails_throw _)
    | some opt =>
      obtain ⟨hmem, hkey, hne⟩ := keyOptions_some hopt
      cases htype : opt.type with
      | noArg =>
        simp only [htype]
        exact .inl (fails_throw _)
      | arg =>
        obtain ⟨hi, heq, -⟩ := List.idxOf?_eq_some_iff.1 hidx
        refine .inr (.inr (.inl ⟨opt, key.drop (i + 1), ⟨hmem, hne, htype⟩, ?_⟩))
        rw [hkey, ← heq, ← List.drop_eq_getElem_cons, List.take_append_drop]

theorem runShort_or_fails (hlt : argPos < argv.length) (group : List UInt8) :
    Fails (p.runShort argv argPos group) ∨
      ∃ opts : List (Opt σ), (∀ opt ∈ opts, HasShort p.options .noArg opt) ∧
        (group = opts.map Opt.shortKey ∨ ∃ opt, HasShort p.options .arg opt ∧
          ((∃ a, a ≠ [] ∧ group = opts.map Opt.shortKey ++ opt.shortKey :: a) ∨
            ∃ a words, group = opts.map Opt.shortKey ++ [opt.shortKey] ∧
              argv.drop (argPos + 1) = a :: words)) := by
  induction group with
  | nil => exact .inr ⟨[], by simp, .inl rfl⟩
  | cons c group ih =>
    cases hopt : p.shortOptions c with
    | none =>
      simp only [runShort, hopt]
      exact .inl (fails_throw _)
    | some opt =>
      obtain ⟨hmem, rfl, hne⟩ := keyOptions_some hopt
      cases htype : opt.type with
      | noArg =>
        simp only [runShort, hopt, htype]
        refine ih.imp (fun h ↦ fails_bind _ fun _ ↦ h) ?_
        rintro ⟨opts, hopts, hgroup⟩
        refine ⟨opt :: opts, ?_, ?_⟩
        · simpa using ⟨⟨hmem, hne, htype⟩, hopts⟩
        · simpa using hgroup
      | arg =>
        by_cases hgroup : group = []
        · subst hgroup
          by_cases hend : argPos + 1 = argv.length
          · simp only [runShort, hopt, htype, if_true, if_pos hend]
            exact .inl (fails_throw _)
          · obtain ⟨a, words, ha⟩ := drop_of_ne hlt hend
            exact .inr ⟨[], by simp, .inr ⟨opt, ⟨hmem, hne, htype⟩, .inr ⟨a, words, rfl, ha⟩⟩⟩
        · exact .inr ⟨[], by simp, .inr ⟨opt, ⟨hmem, hne, htype⟩, .inl ⟨group, hgroup, rfl⟩⟩⟩

/-- The words from a position on are a spelling of something, or are refused. -/
def SpellsOrFails (p : OptionParser σ) (argv : List (List UInt8)) (argPos : ℕ) : Prop :=
  (∃ items, Spells p.options items (argv.drop argPos)) ∨
    ∀ acc, Fails (p.runArgs argv argPos acc)

theorem SpellsOrFails.imp {argPos' : ℕ} {words' : List (List UInt8)}
    (h : SpellsOrFails p argv argPos') (hwords : argv.drop argPos = words)
    (hwords' : argv.drop argPos' = words')
    (hs : ∀ items, Spells p.options items words' → ∃ items', Spells p.options items' words)
    (hf : (∀ acc, Fails (p.runArgs argv argPos' acc)) → ∀ acc, Fails (p.runArgs argv argPos acc)) :
    SpellsOrFails p argv argPos := by
  subst hwords hwords'
  exact Or.imp (fun ⟨items, h⟩ ↦ hs items h) hf h

theorem spellsOrFails_long (hp : Distinct p.options) {key : List UInt8} (hkey : key ≠ [])
    (h : argv.drop argPos = (chr '-' :: chr '-' :: key) :: words)
    (hrest : ∀ argPos' > argPos, SpellsOrFails p argv argPos') : SpellsOrFails p argv argPos := by
  obtain ⟨hlt, -, hwords⟩ := drop_eq_cons h
  rcases runLong_or_fails (p := p) hlt key with
    hf | ⟨opt, ho, rfl⟩ | ⟨opt, a, ho, rfl⟩ | ⟨opt, a, words', ho, rfl, ha⟩
  · refine .inr fun acc ↦ ?_
    rw [runArgs_long hkey h]
    exact hf.bind _
  · refine (hrest (argPos + 1) (by omega)).imp h hwords (fun items hs ↦ ?_) fun hf acc ↦ ?_
    · exact ⟨_, .longFlag ho hs⟩
    · rw [runArgs_long hkey h, runLong_flag hp ho, bind_assoc]
      exact fails_bind _ fun _ ↦ by simpa using hf acc
  · refine (hrest (argPos + 1) (by omega)).imp h hwords (fun items hs ↦ ?_) fun hf acc ↦ ?_
    · exact ⟨_, .longEqual ho hs⟩
    · rw [runArgs_long hkey h, runLong_equal hp ho, bind_assoc]
      exact fails_bind _ fun _ ↦ by simpa using hf acc
  · obtain rfl := hwords.symm.trans ha
    have hnext := (drop_eq_cons ha).2.2
    refine (hrest (argPos + 2) (by omega)).imp h hnext (fun items hs ↦ ?_) fun hf acc ↦ ?_
    · exact ⟨_, .longNext ho hs⟩
    · rw [runArgs_long hkey h, runLong_next hp ho ha, bind_assoc]
      exact fails_bind _ fun _ ↦ by simpa using hf acc

theorem spellsOrFails_short (hp : Distinct p.options) {c : UInt8} {group : List UInt8}
    (hc : c ≠ chr '-') (h : argv.drop argPos = (chr '-' :: c :: group) :: words)
    (hrest : ∀ argPos' > argPos, SpellsOrFails p argv argPos') : SpellsOrFails p argv argPos := by
  obtain ⟨hlt, -, hwords⟩ := drop_eq_cons h
  rcases runShort_or_fails (p := p) hlt (c :: group) with
    hf | ⟨opts, hopts, hgroup | ⟨opt, ho, ⟨a, ha, hgroup⟩ | ⟨a, words', hgroup, ha⟩⟩⟩
  · refine .inr fun acc ↦ ?_
    rw [runArgs_short hc h]
    exact hf.bind _
  · have hne : opts ≠ [] := by
      rintro rfl
      cases hgroup
    rw [hgroup] at h
    refine (hrest (argPos + 1) (by omega)).imp h hwords (fun items hs ↦ ?_) fun hf acc ↦ ?_
    · exact ⟨_, .flags hne hopts hs⟩
    · rw [runArgs_flags hp hne hopts h]
      exact fails_bind _ fun _ ↦ hf acc
  · rw [hgroup] at h
    refine (hrest (argPos + 1) (by omega)).imp h hwords (fun items hs ↦ ?_) fun hf acc ↦ ?_
    · exact ⟨_, .attached hopts ho ha hs⟩
    · rw [runArgs_last hp hopts ho h, runShort_attached hp ho ha]
      refine fails_bind _ fun _ ↦ ?_
      rw [bind_assoc]
      exact fails_bind _ fun _ ↦ by simpa using hf acc
  · obtain rfl := hwords.symm.trans ha
    rw [hgroup] at h
    have hnext := (drop_eq_cons ha).2.2
    refine (hrest (argPos + 2) (by omega)).imp h hnext (fun items hs ↦ ?_) fun hf acc ↦ ?_
    · exact ⟨_, .next hopts ho hs⟩
    · rw [runArgs_last hp hopts ho h, runShort_next hp ho ha]
      refine fails_bind _ fun _ ↦ ?_
      rw [bind_assoc]
      exact fails_bind _ fun _ ↦ by simpa using hf acc

/-- What is no spelling of anything is refused. -/
theorem spellsOrFails (hp : Distinct p.options) (argv : List (List UInt8)) (argPos : ℕ) :
    SpellsOrFails p argv argPos := by
  induction hlen : argv.length - argPos using Nat.strong_induction_on generalizing argPos with
  | h n ih =>
  cases h : argv.drop argPos with
  | nil => exact .inl ⟨[], h ▸ .nil⟩
  | cons w words =>
    obtain ⟨hlt, -, hwords⟩ := drop_eq_cons h
    have hrest (argPos' : ℕ) (hgt : argPos' > argPos) : SpellsOrFails p argv argPos' :=
      ih _ (by omega) argPos' rfl
    by_cases hw : w[0]? ≠ some (chr '-') ∨ w = [chr '-']
    · refine (hrest (argPos + 1) (by omega)).imp h hwords (fun items hs ↦ ?_) fun hf acc ↦ ?_
      · exact ⟨_, .word hw hs⟩
      · rw [runArgs_word h hw]
        exact hf _
    · match w, h, hw with
      | [], _, hw => simp at hw
      | [c], _, hw => simp at hw
      | c :: c' :: w, h, hw =>
        obtain rfl : c = chr '-' := by simpa using hw
        by_cases hc : c' = chr '-'
        · subst hc
          by_cases hkey : w = []
          · subst hkey
            exact .inl ⟨_, by rw [h]; exact .rest⟩
          · exact spellsOrFails_long hp hkey h hrest
        · exact spellsOrFails_short hp hc h hrest

/-! ## The command line -/

theorem forM_tryStatus (checks : List (ExceptT Status (StateM σ) Unit)) :
    checks.forM tryStatus = tryStatus (checks.forM id) := by
  induction checks with
  | nil => rfl
  | cons check checks ih =>
    simp only [List.forM_eq_forM, List.forM_cons, tryStatus_bind, id] at ih ⊢
    rw [ih]

theorem tryStatus_ne_outOfRange {β : Type} (x : ExceptT Status (StateM σ) β) (s : σ) :
    ((tryStatus x).run.run s).1 ≠ .error .outOfRange := by
  rw [run_tryStatus]
  cases (x.run.run s).1 <;> simp [Except.mapError]

/-- What `run_impl` does after the words. -/
def finish (p : OptionParser σ) (expectedNonOptionCount : ℤ) (nonOptions : List (List UInt8)) :
    ExceptT Status (StateM σ) (List (List UInt8)) :=
  if 0 ≤ expectedNonOptionCount ∧ nonOptions.length ≠ expectedNonOptionCount.toNat then
    if expectedNonOptionCount = 0 then error "Unexpected non-option parameters specified"
    else if expectedNonOptionCount.toNat < nonOptions.length then
      error "Too many non-option parameters specified"
    else error "Too few non-option parameters specified"
  else do
    p.checks.forM id
    return nonOptions

theorem runImpl_eq (p : OptionParser σ) (argv : List (List UInt8)) (expectedNonOptionCount : ℤ) :
    p.runImpl argv expectedNonOptionCount =
      p.runArgs argv 1 [] >>= fun words ↦ tryStatus (p.finish expectedNonOptionCount words) := by
  refine bind_congr fun words ↦ ?_
  unfold finish
  split_ifs
  · rfl
  · rfl
  · rfl
  · rw [forM_tryStatus, tryStatus_bind]
    rfl

theorem runImpl_spells (hp : Distinct p.options) {items : List (Item σ)}
    (hs : Spells p.options items argv.tail) (expectedNonOptionCount : ℤ) :
    p.runImpl argv expectedNonOptionCount =
      tryStatus (calls items >>= fun _ ↦ p.finish expectedNonOptionCount (nonOptions items)) := by
  rw [runImpl_eq, runArgs_spells hp hs List.drop_one, bind_assoc, tryStatus_bind]
  simp only [pure_bind, List.nil_append]

/-- What is spelled is done, up to the first callback that fails, what is spelled by nothing is
refused, and `argv` is read below `argc` only. -/
theorem runImpl_spec (p : OptionParser σ) (hp : Distinct p.options) (argv : List (List UInt8))
    (expectedNonOptionCount : ℤ) :
    (∀ items, Spells p.options items argv.tail →
      (expectedNonOptionCount < 0 ∨ (nonOptions items).length = expectedNonOptionCount →
        p.runImpl argv expectedNonOptionCount = tryStatus do
          calls items
          p.checks.forM id
          return nonOptions items) ∧
      (¬(expectedNonOptionCount < 0 ∨ (nonOptions items).length = expectedNonOptionCount) →
        ∃ e, p.runImpl argv expectedNonOptionCount = tryStatus do
          calls items
          throw e) ∧
      ∀ before item after s s' s'' e, items = before ++ item :: after →
        (calls before).run.run s = (.ok (), s') → (calls [item]).run.run s' = (.error e, s'') →
        (p.runImpl argv expectedNonOptionCount).run.run s = (.error (.status e), s'')) ∧
      ((∀ items, ¬Spells p.options items argv.tail) →
        Fails (p.runImpl argv expectedNonOptionCount)) ∧
      ∀ s, ((p.runImpl argv expectedNonOptionCount).run.run s).1 ≠ .error .outOfRange := by
  have hfails (h : ∀ items, ¬Spells p.options items argv.tail) :
      Fails (p.runImpl argv expectedNonOptionCount) := by
    rcases spellsOrFails hp argv 1 with ⟨items, hs⟩ | hf
    · exact absurd (List.drop_one ▸ hs) (h items)
    · rw [runImpl_eq]
      exact (hf []).bind _
  refine ⟨fun items hs ↦ ⟨fun hn ↦ ?_, fun hn ↦ ?_, ?_⟩, hfails, fun s ↦ ?_⟩
  · have hcount : ¬(0 ≤ expectedNonOptionCount ∧
        (nonOptions items).length ≠ expectedNonOptionCount.toNat) := by omega
    rw [runImpl_spells hp hs, finish, if_neg hcount]
  · have hcount : 0 ≤ expectedNonOptionCount ∧
        (nonOptions items).length ≠ expectedNonOptionCount.toNat := by omega
    rw [runImpl_spells hp hs, finish, if_pos hcount]
    split_ifs
    all_goals exact ⟨_, rfl⟩
  · rintro before item after s s' s'' e rfl hbefore hitem
    have hcalls : calls (before ++ item :: after) =
        calls before >>= fun _ ↦ calls [item] >>= fun _ ↦ calls after := by
      rw [← calls_append, ← calls_append, List.singleton_append]
    rw [runImpl_spells hp hs, run_tryStatus, hcalls, bind_assoc, run_bind_ok hbefore, bind_assoc,
      run_bind_error hitem]
    rfl
  · by_cases h : ∃ items, Spells p.options items argv.tail
    · obtain ⟨items, hs⟩ := h
      rw [runImpl_spells hp hs]
      exact tryStatus_ne_outOfRange _ s
    · obtain ⟨e, he⟩ := hfails (not_exists.1 h) s
      rw [he]
      simp

/-- An option without an argument, one with the argument that is next to it, and a word. -/
theorem runImpl_spec_group :
    let record : List UInt8 → ExceptT Status (StateM (List (List UInt8))) Unit :=
      fun a ↦ modify (· ++ [a])
    let v : Opt (List (List UInt8)) := ⟨.noArg, chr 'v', [], record⟩
    let o : Opt (List (List UInt8)) := ⟨.arg, chr 'o', [], record⟩
    runImpl ⟨[v, o], []⟩ [[], [chr '-', chr 'v', chr 'o', chr 'x'], [chr 'y']] 1 = tryStatus do
      calls [.flag v, .option o [chr 'x'], .nonOption [chr 'y']]
      [].forM id
      return [[chr 'y']] := by
  intro record v o
  have hdistinct : Distinct [v, o] :=
    ⟨by simp [v, o]; decide, by simp [v, o], by simp [v, o]; decide, by simp [v, o]⟩
  have hspells : Spells [v, o] [.flag v, .option o [chr 'x'], .nonOption [chr 'y']]
      [[chr '-', chr 'v', chr 'o', chr 'x'], [chr 'y']] := by
    have hv : ∀ opt ∈ [v], HasShort [v, o] .noArg opt := by
      simp [HasShort, v, o]
      decide
    have ho : HasShort [v, o] .arg o := ⟨by simp, by decide, rfl⟩
    have hword : Spells [v, o] [.nonOption [chr 'y']] [[chr 'y']] :=
      .word (.inl (by decide)) .nil
    exact .attached hv ho (by simp) hword
  exact ((runImpl_spec ⟨[v, o], []⟩ hdistinct [[], [chr '-', chr 'v', chr 'o', chr 'x'], [chr 'y']]
    1).1 _ hspells).1 (.inr rfl)

end OptionParser

end PxcCore
