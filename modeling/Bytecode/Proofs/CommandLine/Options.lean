import Bytecode.CommandLine.Options
import Bytecode.Proofs.Text.Split

/-!
# What a command line can ask for

Settings are read back from the words that spell them, each setting keeps the values within their
bounds, and so the options of a run are exactly the proper ones.
-/

namespace Bytecode
namespace CommandLine

/-!
# Words
-/

namespace Setting

def word (setting : Setting) (value : String) : String :=
  "--" ++ setting.name ++ "=" ++ value

theorem ofName?_name (setting : Setting) : ofName? setting.name = some setting := by
  cases setting <;> rfl

theorem ne_of_mem_name (setting : Setting) :
    ∀ c ∈ setting.name.toList, decide (c ≠ '=') = true := by
  have hall : setting.name.toList.all (fun c => decide (c ≠ '=')) = true := by
    cases setting <;> rfl
  exact List.all_eq_true.mp hall

theorem name_toList_ne_nil (setting : Setting) : setting.name.toList ≠ [] := by
  cases setting <;> decide

theorem word_toList (setting : Setting) (value : String) :
    (setting.word value).toList =
      '-' :: '-' :: (setting.name.toList ++ '=' :: value.toList) := by
  rw [word, String.toList_append, String.toList_append, String.toList_append, List.append_assoc,
    List.append_assoc]
  rfl

end Setting

namespace Word

theorem ofLong_setting (setting : Setting) (value : String) :
    ofLong (setting.name.toList ++ '=' :: value.toList) = set setting (some value) := by
  have hname : (setting.name.toList ++ '=' :: value.toList).takeWhile (· ≠ '=') =
      setting.name.toList := by
    rw [List.takeWhile_append_of_pos setting.ne_of_mem_name]
    simp
  have hvalue : (setting.name.toList ++ '=' :: value.toList).dropWhile (· ≠ '=') =
      '=' :: value.toList := by
    rw [List.dropWhile_append_of_pos setting.ne_of_mem_name]
    simp
  simp only [ofLong, hname, hvalue, String.ofList_toList, Setting.ofName?_name]

theorem ofText_word (setting : Setting) (value : String) :
    ofText (setting.word value) = set setting (some value) := by
  rw [ofText, setting.word_toList]
  obtain ⟨first, rest, hname⟩ := List.exists_cons_of_ne_nil setting.name_toList_ne_nil
  rw [← ofLong_setting, hname]
  rfl

end Word

/-!
# Values
-/

theorem le_of_number? {text : String} {n : ℕ} (h : number? text = some n) : n ≤ maxNumber := by
  simp only [number?] at h
  split_ifs at h with hspelt
  exact Option.some.inj h ▸ hspelt.2.2

theorem number?_toString {n : ℕ} (h : n ≤ maxNumber) : number? (toString n) = some n := by
  have hdigits : (toString n).toList = Nat.toDigits 10 n := by
    rw [Nat.toString_eq_repr, Nat.repr_eq_ofList_toDigits, String.toList_ofList]
  have hisDigit : ∀ c ∈ Nat.toDigits 10 n, c.isDigit = true :=
    fun c hc => Nat.isDigit_of_mem_toDigits (by decide) (by decide) hc
  have hvalue : (Nat.toDigits 10 n).foldl (fun n c => 10 * n + (c.toNat - '0'.toNat)) 0 = n :=
    Nat.ofDigitChars_toDigits (by decide) (by decide)
  unfold number?
  rw [hdigits]
  split
  next rest hplus =>
    have hbad := hisDigit '+' (hplus ▸ List.mem_cons_self)
    cases hbad
  next =>
    dsimp only
    rw [hvalue, if_pos ⟨Nat.toDigits_ne_nil, List.all_eq_true.mpr hisDigit, h⟩]

theorem ofName?_name (level : Threshold) : Threshold.ofName? level.name = some level := by
  rcases level with _ | level
  · rfl
  · cases level <;> rfl

/-!
# Drafts
-/

/-- Options that a command line can ask for. -/
structure Options.Proper (o : Options) : Prop where
  classPath : o.classPath ≠ []
  entries : ∀ entry ∈ o.classPath, entry ≠ "" ∧ ':' ∉ entry.toList
  logFile : o.logFile ≠ ""
  maxDepth : o.maxDepth ≤ maxNumber

namespace Draft

variable {d d' : Draft} {setting : Setting} {value : String} {words : List String} {o : Options}

structure Proper (d : Draft) : Prop where
  entries : ∀ entry ∈ d.classPath, entry ≠ "" ∧ ':' ∉ entry.toList
  logFile : d.logFile ≠ some ""
  maxDepth : ∀ n, d.maxDepth = some n → n ≤ maxNumber

theorem empty_proper : empty.Proper :=
  ⟨fun _ h => absurd h List.not_mem_nil, nofun, nofun⟩

/-- What making a setting takes and does, the setting given by its kind. -/
inductive Sets (d : Draft) : Setting → String → Draft → Prop where
  | classPath {value : String} (h : "" ∉ value.splitOn ":") :
      Sets d .classPath value { d with classPath := d.classPath ++ value.splitOn ":" }
  | logFile {value : String} (hunset : d.logFile = none) (h : value ≠ "") :
      Sets d .logFile value { d with logFile := some value }
  | logLevel {value : String} {level : Threshold} (hunset : d.logLevel = none)
      (h : Threshold.ofName? value = some level) :
      Sets d .logLevel value { d with logLevel := some level }
  | maxDepth {value : String} {depth : ℕ} (hunset : d.maxDepth = none)
      (h : number? value = some depth) :
      Sets d .maxDepth value { d with maxDepth := some depth }

theorem set_ok_iff : d.set setting value = .ok d' ↔ d.Sets setting value d' := by
  constructor
  · intro h
    unfold set at h
    cases setting with
    | classPath =>
        dsimp only at h
        split at h
        next => cases h
        next hentries =>
          cases h
          exact .classPath (by simpa using hentries)
    | logFile =>
        dsimp only at h
        split_ifs at h with hset hempty
        cases h
        exact .logFile (by simpa using hset) hempty
    | logLevel =>
        dsimp only at h
        split_ifs at h with hset
        split at h
        next level hlevel =>
          cases h
          exact .logLevel (by simpa using hset) hlevel
        next => cases h
    | maxDepth =>
        dsimp only at h
        split_ifs at h with hset
        split at h
        next depth hdepth =>
          cases h
          exact .maxDepth (by simpa using hset) hdepth
        next => cases h
  · intro h
    cases h with
    | classPath h => simp [set, h]
    | logFile hunset h => simp [set, hunset, h]
    | logLevel hunset h => simp [set, hunset, h]
    | maxDepth hunset h => simp [set, hunset, h]

theorem Sets.mainClass (h : d.Sets setting value d') : d'.mainClass = d.mainClass := by
  cases h <;> rfl

theorem Sets.proper (h : d.Sets setting value d') (hd : d.Proper) : d'.Proper := by
  cases h with
  | classPath h =>
      refine ⟨fun entry hentry => ?_, hd.logFile, hd.maxDepth⟩
      rcases List.mem_append.mp hentry with hold | hnew
      · exact hd.entries entry hold
      · exact ⟨fun hempty => h (hempty ▸ hnew), Text.not_mem_of_mem_splitOn hnew⟩
  | logFile hunset h => exact ⟨hd.entries, fun hempty => h (Option.some.inj hempty), hd.maxDepth⟩
  | logLevel hunset h => exact ⟨hd.entries, hd.logFile, hd.maxDepth⟩
  | maxDepth hunset h =>
      exact ⟨hd.entries, hd.logFile, fun n hn => Option.some.inj hn ▸ le_of_number? h⟩

theorem Sets.swap {d'' : Draft} {setting' : Setting} {value' : String}
    (hne : setting ≠ setting') (h : d.Sets setting value d') (h' : d'.Sets setting' value' d'') :
    ∃ e, d.Sets setting' value' e ∧ e.Sets setting value d'' := by
  cases h with
  | classPath h =>
      cases h' with
      | classPath => exact absurd rfl hne
      | logFile hunset h' => exact ⟨_, .logFile hunset h', .classPath h⟩
      | logLevel hunset h' => exact ⟨_, .logLevel hunset h', .classPath h⟩
      | maxDepth hunset h' => exact ⟨_, .maxDepth hunset h', .classPath h⟩
  | logFile hunset h =>
      cases h' with
      | classPath h' => exact ⟨_, .classPath h', .logFile hunset h⟩
      | logFile => exact absurd rfl hne
      | logLevel hunset' h' => exact ⟨_, .logLevel hunset' h', .logFile hunset h⟩
      | maxDepth hunset' h' => exact ⟨_, .maxDepth hunset' h', .logFile hunset h⟩
  | logLevel hunset h =>
      cases h' with
      | classPath h' => exact ⟨_, .classPath h', .logLevel hunset h⟩
      | logFile hunset' h' => exact ⟨_, .logFile hunset' h', .logLevel hunset h⟩
      | logLevel => exact absurd rfl hne
      | maxDepth hunset' h' => exact ⟨_, .maxDepth hunset' h', .logLevel hunset h⟩
  | maxDepth hunset h =>
      cases h' with
      | classPath h' => exact ⟨_, .classPath h', .maxDepth hunset h⟩
      | logFile hunset' h' => exact ⟨_, .logFile hunset' h', .maxDepth hunset h⟩
      | logLevel hunset' h' => exact ⟨_, .logLevel hunset' h', .maxDepth hunset h⟩
      | maxDepth => exact absurd rfl hne

/-- The arguments are the last words.  The main class is known already or stands before them. -/
def Divides (d : Draft) (words : List String) (o : Options) : Prop :=
  ∃ front, words = front ++ o.arguments ∧ o.mainClass ∈ d.mainClass.toList ++ front

theorem Divides.cons (word : String) (h : d.Divides words o) : d.Divides (word :: words) o := by
  obtain ⟨front, rfl, hmain⟩ := h
  refine ⟨word :: front, rfl, ?_⟩
  rcases List.mem_append.mp hmain with hknown | hfront
  · exact List.mem_append_left _ hknown
  · exact List.mem_append_right _ (List.mem_cons_of_mem word hfront)

theorem Divides.of_eq (h : d'.Divides words o) (hmain : d'.mainClass = d.mainClass) :
    d.Divides words o := by
  rwa [Divides, ← hmain]

theorem finish_proper (hd : d.Proper) (h : d.finish words = .ok (.run o)) : o.Proper := by
  unfold finish at h
  split at h
  next => cases h
  next =>
    cases h
    constructor <;> dsimp only
    · split_ifs with hclassPath
      · exact List.cons_ne_nil _ _
      · exact hclassPath
    · split_ifs with hclassPath
      · intro entry hentry
        rw [List.mem_singleton.mp hentry]
        decide
      · exact hd.entries
    · cases hfile : d.logFile with
      | none => decide
      | some file => exact fun hempty => hd.logFile (hempty ▸ hfile)
    · cases hdepth : d.maxDepth with
      | none => decide
      | some depth => exact hd.maxDepth depth hdepth

theorem finish_divides (h : d.finish words = .ok (.run o)) : d.Divides words o := by
  unfold finish at h
  split at h
  next => cases h
  next mainClass arguments hwords =>
    cases h
    cases hmain : d.mainClass with
    | none =>
        rw [hmain] at hwords
        exact ⟨[mainClass], hwords, by simp⟩
    | some known =>
        rw [hmain] at hwords
        cases hwords
        exact ⟨[], rfl, by simp [hmain]⟩

theorem sets_of_bind {order : Order}
    (h : (do let d ← d.set setting value; d.read words) = .ok order) :
    ∃ d', d.Sets setting value d' ∧ d'.read words = .ok order := by
  cases hset : d.set setting value with
  | error misuse =>
      rw [hset] at h
      cases h
  | ok d' =>
      rw [hset] at h
      exact ⟨d', set_ok_iff.mp hset, h⟩

theorem read_run (hd : d.Proper) (h : d.read words = .ok (.run o)) :
    o.Proper ∧ d.Divides words o := by
  -- the induction follows the reader, which takes one word or two at a time
  fun_induction read d words with
  | case1 d => exact ⟨finish_proper hd h, finish_divides h⟩
  | case2 d word rest hword => exact ⟨finish_proper hd h, (finish_divides h).cons word⟩
  | case3 => cases h
  | case4 => cases h
  | case5 => cases h
  | case6 d word rest setting value hword ih =>
      obtain ⟨d', hset, hread⟩ := sets_of_bind h
      obtain ⟨hproper, hdivides⟩ := ih d' (hset.proper hd) hread
      exact ⟨hproper, (hdivides.of_eq hset.mainClass).cons word⟩
  | case7 => cases h
  | case8 d word setting hword value rest hvalue ih =>
      obtain ⟨d', hset, hread⟩ := sets_of_bind h
      obtain ⟨hproper, hdivides⟩ := ih d' (hset.proper hd) hread
      exact ⟨hproper, ((hdivides.of_eq hset.mainClass).cons value).cons word⟩
  | case9 => cases h
  | case10 d word rest hword hknown => exact ⟨finish_proper hd h, finish_divides h⟩
  | case11 d word rest hword hunknown ih =>
      obtain ⟨hproper, front, hrest, hmain⟩ := ih ⟨hd.entries, hd.logFile, hd.maxDepth⟩ h
      refine ⟨hproper, word :: front, congrArg (word :: ·) hrest, ?_⟩
      exact List.mem_append_right _ hmain

theorem read_word (h : d.Sets setting value d') :
    d.read (setting.word value :: words) = d'.read words := by
  rw [read, Word.ofText_word]
  dsimp only
  rw [set_ok_iff.mpr h]
  rfl

theorem read_divider : d.read ("--" :: words) = d.finish words :=
  rfl

/-- Words that make settings of different kinds may change places. -/
theorem read_swap {setting' : Setting} {value' : String} {order : Order}
    (hne : setting ≠ setting')
    (h : d.read (setting.word value :: setting'.word value' :: words) = .ok order) :
    d.read (setting'.word value' :: setting.word value :: words) = .ok order := by
  have hinvert {d : Draft} {setting : Setting} {value : String} {words : List String}
      (h : d.read (setting.word value :: words) = .ok order) :
      ∃ d', d.Sets setting value d' ∧ d'.read words = .ok order := by
    rw [read, Word.ofText_word] at h
    exact sets_of_bind h
  obtain ⟨d', hset, h⟩ := hinvert h
  obtain ⟨d'', hset', h⟩ := hinvert h
  obtain ⟨e, he, he'⟩ := hset.swap hne hset'
  rw [read_word he, read_word he', h]

end Draft

/-!
# Options
-/

namespace Options

variable {o : Options}

def words (o : Options) : List String :=
  Setting.classPath.word (":".intercalate o.classPath) :: Setting.logFile.word o.logFile ::
    Setting.logLevel.word o.logLevel.name :: Setting.maxDepth.word (toString o.maxDepth) ::
    "--" :: o.mainClass :: o.arguments

theorem read_words (h : o.Proper) : read o.words = .ok (.run o) := by
  have hentries : (":".intercalate o.classPath).splitOn ":" = o.classPath :=
    Text.splitOn_intercalate ':' h.classPath fun entry hentry => (h.entries entry hentry).2
  have hclassPath : Draft.empty.Sets .classPath (":".intercalate o.classPath)
      { Draft.empty with classPath := o.classPath } := by
    have hnonempty : "" ∉ o.classPath := fun hempty => (h.entries "" hempty).1 rfl
    have hset := @Draft.Sets.classPath Draft.empty (":".intercalate o.classPath)
      (by rwa [hentries])
    rwa [hentries] at hset
  rw [read, words, Draft.read_word hclassPath, Draft.read_word (.logFile rfl h.logFile),
    Draft.read_word (.logLevel rfl (ofName?_name o.logLevel)),
    Draft.read_word (.maxDepth rfl (number?_toString h.maxDepth)), Draft.read_divider]
  show Except.ok (Order.run _) = _
  rw [if_neg h.classPath]
  rfl

/-- The options that a command line can ask for are the proper ones. -/
theorem proper_iff : o.Proper ↔ ∃ words, read words = .ok (.run o) :=
  ⟨fun h => ⟨o.words, read_words h⟩, fun ⟨_, h⟩ => (Draft.read_run Draft.empty_proper h).1⟩

end Options

/-- The arguments of a program are the last words of the command line, behind its main class. -/
theorem read_divides {words : List String} {o : Options} (h : read words = .ok (.run o)) :
    ∃ front, words = front ++ o.arguments ∧ o.mainClass ∈ front :=
  (Draft.read_run Draft.empty_proper h).2

end CommandLine
end Bytecode
