import ActiveSet.Journal
import Mathlib.Tactic.SplitIfs

/-! What a journal writes after any number of requests. All loggers and their handlers stand at the level that was set
last, so the hierarchy of names decides nothing: a message is written if its level is positive and reaches that one. Its
layout and its stream are those of the last configuration that came after its logger was made. -/

namespace ActiveSet

namespace Journal

def find (j : Journal) (name : String) : Option Logger := j.loggers.find? fun l => l.name = name

theorem logger_eq (j : Journal) (name : Option String) :
    j.logger name = match j.find (fullName name) with
      | some l => (j, l)
      | none =>
        ({ j with loggers := j.loggers ++ [fresh j.level (fullName name)] }, fresh j.level (fullName name)) := rfl

/-- What a caller can ask of a journal. -/
inductive Request where
  | logger (name : Option String)
  | setLevel (level : Int)
  | configure (level : Int) (layout stream : Option String)
  | write (name : Option String) (level : Int) (message : String)

/-- How a logger writes. -/
structure Style where
  layout : String
  stream : String

namespace Request

def standard : Style := ⟨standardLayout, standardStream⟩

def style (layout stream : Option String) : Style :=
  let layout := layout.getD standardLayout
  ⟨if layout = "" then "%(message)s" else layout, stream.getD standardStream⟩

/-- The layout that is asked for can be used. -/
def Accepted : Request → Prop
  | configure _ layout stream => Layout.accepted (style layout stream).layout
  | _ => True

def serve (j : Journal) : Request → Journal
  | logger name => (j.logger name).1
  | setLevel level => j.setLevel level
  | configure level layout stream => (j.configure level layout stream).1
  | write name level message => (j.write name level message).1

def levelAfter (level : Int) : Request → Int
  | logger _ => level
  | setLevel level => level
  | configure level _ _ => level
  | write _ _ _ => level

def styleAfter (name : String) (s : Option Style) : Request → Option Style
  | logger n => if fullName n = name then some (s.getD standard) else s
  | setLevel _ => s
  | configure _ layout stream => s.map fun _ => style layout stream
  | write n _ _ => if fullName n = name then some (s.getD standard) else s

end Request

open Request

def loggerIn (level : Int) (name : String) (s : Style) : Logger := ⟨name, level, some ⟨level, s.stream, s.layout⟩⟩

/-- The journal has the level `level` throughout and the loggers that `styles` gives a style. -/
structure Describes (level : Int) (styles : String → Option Style) (j : Journal) : Prop where
  level_eq : j.level = level
  find_eq : ∀ name, j.find name = (styles name).map (loggerIn level name)

variable {j : Journal} {level : Int} {styles : String → Option Style}

theorem describes_initial : Describes Level.warning
    (fun name => if name ∈ parts.map (fun p => rootName ++ "." ++ p) then some standard else none) initial := by
  refine ⟨rfl, fun name => ?_⟩
  have hfind : ∀ ps : List String, (ps.map (fresh Level.warning)).find? (fun l => l.name = name) =
      (if name ∈ ps then some standard else none).map (loggerIn Level.warning name) := by
    intro ps
    induction ps with
    | nil => rfl
    | cons p ps ih =>
      rw [List.map_cons, List.find?_cons]
      by_cases h : p = name
      · subst h
        simp [fresh, loggerIn, standard]
      · simp only [fresh, h, decide_false, List.mem_cons, Ne.symm h, false_or] at ih ⊢
        exact ih
  exact hfind (parts.map fun p => rootName ++ "." ++ p)

theorem Describes.logger (h : Describes level styles j) (n : Option String) :
    Describes level (fun name => styleAfter name (styles name) (.logger n)) (j.logger n).1 ∧
      (j.logger n).2 = loggerIn level (fullName n) ((styles (fullName n)).getD standard) := by
  rw [logger_eq, h.find_eq]
  cases hs : styles (fullName n) with
  | some s =>
    dsimp only [Option.map_some]
    refine ⟨⟨h.level_eq, fun name => ?_⟩, rfl⟩
    simp only [styleAfter]
    split_ifs with heq
    · rw [← heq, h.find_eq, hs]
      rfl
    · exact h.find_eq name
  | none =>
    refine ⟨⟨h.level_eq, fun name => ?_⟩, by rw [h.level_eq]; rfl⟩
    have happend : Journal.find { j with loggers := j.loggers ++ [fresh j.level (fullName n)] } name =
        (j.find name).or (if fullName n = name then some (fresh j.level (fullName n)) else none) := by
      simp only [Journal.find, List.find?_append]
      congr 1
      simp [fresh, List.find?_cons]
      split_ifs <;> simp_all
    simp only [styleAfter, Option.map_none]
    rw [happend, h.find_eq]
    split_ifs with heq
    · rw [← heq, hs, h.level_eq]
      rfl
    · simp

theorem find_of_map {j' : Journal} {f : Logger → Logger} (h : j'.loggers = j.loggers.map f)
    (hf : ∀ l, (f l).name = l.name) (name : String) : j'.find name = (j.find name).map f := by
  simp only [find, h, List.find?_map]
  congr 2
  funext l
  simp [hf]

theorem Describes.setLevel (h : Describes level styles j) (level' : Int) :
    Describes level' styles (j.setLevel level') := by
  have hmap : (j.setLevel level').loggers = j.loggers.map fun l =>
      { l with level := level', handler := l.handler.map fun h => { h with level := level' } } := rfl
  refine ⟨rfl, fun name => ?_⟩
  rw [find_of_map hmap fun _ => rfl, h.find_eq, Option.map_map]
  rfl

theorem Describes.configure (h : Describes level styles j) (level' : Int) {layout stream : Option String}
    (haccepted : Layout.accepted (style layout stream).layout) :
    Describes level' (fun name => (styles name).map fun _ => style layout stream)
      (j.configure level' layout stream).1 := by
  have hconfigure : (j.configure level' layout stream).1 =
      ⟨j.loggers.map fun l => loggerIn level' l.name (style layout stream), level'⟩ := by
    simp only [Journal.configure]
    exact congrArg Prod.fst (if_pos haccepted)
  have hmap := congrArg Journal.loggers hconfigure
  refine ⟨congrArg Journal.level hconfigure, fun name => ?_⟩
  rw [find_of_map hmap fun _ => rfl, h.find_eq, Option.map_map, Option.map_map]
  rfl

def threshold (level : Int) : Int := if level = 0 then Level.warning else level

theorem Describes.effectiveLevel (h : Describes level styles j) {l : Logger} (hl : l.level = level) :
    j.effectiveLevel l = threshold level := by
  let ks := (above l.name).filterMap fun name => (j.find name).map Logger.level
  have hks : ∀ k ∈ l.level :: ks, k = level := by
    intro k hk
    -- every logger above stands at the same level, so the nearest one decides nothing
    rcases List.mem_cons.1 hk with rfl | hk
    · exact hl
    · obtain ⟨name, -, hname⟩ := List.mem_filterMap.1 hk
      rw [h.find_eq, Option.map_map] at hname
      obtain ⟨s, -, hs⟩ := Option.map_eq_some_iff.1 hname
      exact hs.symm
  show ((l.level :: ks).find? fun level => level ≠ 0).getD Level.warning = _
  unfold threshold
  split_ifs with hzero
  · rw [List.find?_eq_none.2 fun k hk => by simp [hks k hk, hzero]]
    rfl
  · rw [List.find?_cons_of_pos (by simpa [hl] using hzero), Option.getD_some, hl]

/-- What a journal writes of a message, and that it is as if only its logger had been asked for. -/
theorem Describes.write (h : Describes level styles j) (n : Option String) (k : Int) (message : String) :
    (j.write n k message).1 = (j.logger n).1 ∧
      (j.write n k message).2 =
        if 0 < k ∧ threshold level ≤ k then
          let s := (styles (fullName n)).getD standard
          some (s.stream, Handler.record ⟨level, s.stream, s.layout⟩ (fullName n) k message)
        else none := by
  obtain ⟨hafter, hlogger⟩ := h.logger n
  have hlevel : (j.logger n).2.level = level := by rw [hlogger]; rfl
  have hhandler : (j.logger n).2.handler = _ := congrArg Logger.handler hlogger
  have hname : (j.logger n).2.name = fullName n := by rw [hlogger]; rfl
  have heffective := hafter.effectiveLevel hlevel
  simp only [Journal.write, heffective, hname, hhandler, loggerIn]
  split_ifs with hk hle
  · exact ⟨rfl, rfl⟩
  · have := hk.2
    unfold threshold at this
    split at this <;> omega
  · exact ⟨rfl, rfl⟩

theorem Describes.serve (h : Describes level styles j) {r : Request} (hr : r.Accepted) :
    Describes (levelAfter level r) (fun name => styleAfter name (styles name) r) (serve j r) := by
  cases r with
  | logger n => exact (h.logger n).1
  | setLevel level' => exact h.setLevel level'
  | configure level' layout stream => exact h.configure level' hr
  | write n k message =>
    rw [Request.serve, (h.write n k message).1]
    exact (h.logger n).1

theorem Describes.foldl {rs : List Request} (h : Describes level styles j) (hrs : ∀ r ∈ rs, r.Accepted) :
    Describes (rs.foldl levelAfter level) (fun name => rs.foldl (styleAfter name) (styles name))
      (rs.foldl Request.serve j) := by
  induction rs generalizing j level styles with
  | nil => exact h
  | cons r rs ih =>
    exact ih (h.serve (hrs r List.mem_cons_self)) fun r' hr' => hrs r' (List.mem_cons_of_mem _ hr')

/-- The level after a list of requests. -/
def levelOf (rs : List Request) : Int := rs.foldl levelAfter Level.warning

/-- How a logger writes after a list of requests. -/
def styleOf (rs : List Request) (name : String) : Style :=
  (rs.foldl (styleAfter name)
    (if name ∈ parts.map (fun p => rootName ++ "." ++ p) then some standard else none)).getD standard

def line (rs : List Request) (name : String) (k : Int) (message : String) : String × String :=
  ((styleOf rs name).stream,
    Handler.record ⟨levelOf rs, (styleOf rs name).stream, (styleOf rs name).layout⟩ name k message)

variable {rs : List Request}

theorem write_served (hrs : ∀ r ∈ rs, r.Accepted) (n : Option String) (k : Int) (message : String) :
    ((rs.foldl Request.serve initial).write n k message).2 =
      if 0 < k ∧ threshold (levelOf rs) ≤ k then some (line rs (fullName n) k message) else none :=
  ((describes_initial.foldl hrs).write n k message).2

/-- After any requests with layouts that can be used, a message is written if its level is positive and reaches the
one that was set last, in the style that its own logger was given last; what a solve reports is written by the same
rule, in order. -/
theorem writes_of_requests (hrs : ∀ r ∈ rs, r.Accepted) :
    (∀ n k message, ((rs.foldl Request.serve initial).write n k message).2 =
      if 0 < k ∧ threshold (levelOf rs) ≤ k then some (line rs (fullName n) k message) else none) ∧
      ∀ events, (rs.foldl Request.serve initial).writeEvents events =
        ((events.filterMap Event.record?).filter fun r => decide (0 < r.level ∧ threshold (levelOf rs) ≤ r.level)).map
          fun r => line rs (fullName (some (rootName ++ "." ++ r.part))) r.level r.message := by
  refine ⟨write_served hrs, fun events => ?_⟩
  unfold writeEvents
  rw [← List.filterMap_eq_map, List.filterMap_filter]
  congr 1
  funext r
  rw [write_served hrs]
  simp

def changed : List Request :=
  [.configure Level.info (some "%(name)s %(message)s") (some "file"), .logger (some "mine"), .setLevel Level.debug]

theorem writes_of_requests_changed :
    (∀ r ∈ changed, r.Accepted) ∧
      ((changed.foldl Request.serve initial).write (some "mine") 10 "added").2 =
        some ("stderr", "[DEBUG] generalqp.mine: added\n") ∧
      ((changed.foldl Request.serve initial).write (some "qp") 9 "added").2 = none ∧
        (changed.foldl Request.serve initial).writeEvents [.limitReached 5] =
          [("file", "generalqp.qp Maximum iterations (5) reached\n")] := by
  have haccepted : ∀ r ∈ changed, r.Accepted := by
    simp only [changed, List.forall_mem_cons, Request.Accepted]
    exact ⟨by decide +kernel, trivial, trivial, by simp⟩
  obtain ⟨hwrite, hevents⟩ := writes_of_requests haccepted
  refine ⟨haccepted, ?_, ?_, ?_⟩
  · rw [hwrite]
    decide +kernel
  · rw [hwrite]
    decide +kernel
  · rw [hevents]
    decide +kernel

theorem record_standard (level : Int) (stream name message : String) :
    Handler.record ⟨level, stream, standardLayout⟩ name level message =
      "[" ++ Level.name level ++ "] " ++ name ++ ": " ++ message ++ "\n" := by
  have hplain : ∀ field value, Layout.Directive.place ⟨field, false, 0, none, 's'⟩ value = value := by
    intro field value
    simp [Layout.Directive.place]
  have hfill : Layout.fill
      [("levelname", Level.name level), ("levelno", toString level), ("name", name), ("message", message)]
      standardLayout =
        "[" ++ (Layout.Directive.place ⟨"levelname", false, 0, none, 's'⟩ (Level.name level) ++
          ("]" ++ (" " ++ (Layout.Directive.place ⟨"name", false, 0, none, 's'⟩ name ++
            (":" ++ (" " ++ (Layout.Directive.place ⟨"message", false, 0, none, 's'⟩ message ++ ""))))))) := rfl
  rw [Handler.record, hfill, hplain, hplain, hplain, show ("] " : String) = "]" ++ " " from rfl,
    show (": " : String) = ":" ++ " " from rfl]
  simp only [String.append_assoc, String.append_empty]

end Journal

namespace Layout

variable {text rest : List Char} {d : Directive}

theorem length_number (text : List Char) : (number text).2.length ≤ text.length :=
  (List.dropWhile_sublist _).length_le

theorem length_precision (text : List Char) :
    (match text with
      | '.' :: digit :: rest => if digit.isDigit then number (digit :: rest) else (none, text)
      | _ => (none, text)).2.length ≤ text.length := by
  split
  · split
    · exact Nat.le_trans (length_number _) (by simp)
    · exact Nat.le_refl _
  · exact Nat.le_refl _

theorem length_directive (h : directive? text = some (d, rest)) : rest.length < text.length := by
  unfold directive? at h
  split at h
  next body =>
    dsimp only at h
    split at h
    next after hword =>
      have hle := (List.dropWhile_sublist isWord (l := body)).length_le
      rw [hword, List.length_cons] at hle
      have hflags := (List.dropWhile_sublist isFlag (l := after)).length_le
      have hwidth := length_number (after.dropWhile isFlag)
      split at h
      next letter left hleft =>
        split_ifs at h
        have hlen := Nat.le_trans (Nat.le_of_eq (congrArg List.length hleft).symm) (length_precision _)
        simp only [Option.some_inj, Prod.mk.injEq] at h
        rw [← h.2]
        rw [List.length_cons] at hlen
        simp only [List.length_cons]
        omega
      · simp at h
    · simp at h
  · simp at h

/-- One unit of fuel a character is enough: a layout is replaced to its end. -/
theorem fillWith_of_le (fields : List (String × String)) {fuel more : Nat} (h : text.length ≤ fuel)
    (hmore : fuel ≤ more) : fillWith fields more text = fillWith fields fuel text := by
  induction fuel, text using fillWith.induct fields generalizing more with
  | case1 text =>
    rw [List.length_eq_zero_iff.1 (Nat.le_zero.1 h)]
    cases more <;> rfl
  | case2 fuel hfuel => cases more <;> cases fuel <;> rfl
  | case3 fuel rest ih =>
    obtain ⟨more, rfl⟩ := Nat.exists_eq_add_of_lt hmore
    simp only [List.length_cons] at h
    rw [fillWith.eq_3, fillWith.eq_3, ih (by omega) (by omega)]
  | case4 fuel c rest hplain d after hd f hf ih =>
    obtain ⟨more, rfl⟩ := Nat.exists_eq_add_of_lt hmore
    have hlen := length_directive hd
    rw [fillWith.eq_4 _ _ _ _ hplain, fillWith.eq_4 _ _ _ _ hplain, hd]
    simp only [hf]
    rw [ih (by omega) (by omega)]
  | case5 fuel c rest hplain d after hd hf ih =>
    obtain ⟨more, rfl⟩ := Nat.exists_eq_add_of_lt hmore
    simp only [List.length_cons] at h
    rw [fillWith.eq_4 _ _ _ _ hplain, fillWith.eq_4 _ _ _ _ hplain, hd]
    simp only [hf]
    rw [ih (by omega) (by omega)]
  | case6 fuel c rest hplain hd ih =>
    obtain ⟨more, rfl⟩ := Nat.exists_eq_add_of_lt hmore
    simp only [List.length_cons] at h
    rw [fillWith.eq_4 _ _ _ _ hplain, fillWith.eq_4 _ _ _ _ hplain, hd]
    dsimp only
    rw [ih (by omega) (by omega)]

end Layout

end ActiveSet
