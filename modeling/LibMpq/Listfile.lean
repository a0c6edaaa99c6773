import LibMpq.Base.Checked
import LibMpq.Base.Fields
import LibMpq.Tables
import LibMpq.Types

set_option autoImplicit false

namespace LibMpq

open Effect Fields

namespace Listfile

abbrev sizeMax : Nat := 2 ^ 64 - 1

abbrev lineFeed : UInt8 := 10

abbrev carriageReturn : UInt8 := 13

abbrev semicolon : UInt8 := 59

def endsLine (b : UInt8) : Bool := b = lineFeed || b = carriageReturn

def sameName (first second : Bytes) : Bool :=
  Crypto.hashString first 0x100 = Crypto.hashString second 0x100 &&
    Crypto.hashString first 0x200 = Crypto.hashString second 0x200

def dropped (old line : Bytes) : Bool := sameName line old || sameName line signatureName

structure Rewrite where
  rest : Bytes
  updated : Bytes
  used : Nat

def updateRound (old : Bytes) (w : Rewrite) : Op (Stop Error) Faults (Rewrite ⊕ Rewrite) :=
  if w.rest = [] then pure (.inr w)
  else do
    let line := front endsLine w.rest
    let rest := behind endsLine w.rest
    if line = [] then pure (.inl { w with rest })
    else
      stopIf (0 ∈ line) .format
      request (.error .malloc)
      if dropped old line then pure (.inl { w with rest })
      else
        let updated ← store w.updated w.used line
        let updated ← store updated (w.used + line.length) [lineFeed]
        pure (.inl { rest, updated, used := w.used + line.length + 1 })

-- `update_listfile`, from the content it has read to the one it returns
def updateListfile (original : Bytes) (old : Name) (new : Option Name) :
    Op (Stop Error) Faults Bytes := do
  let extra := (new.elim [] Subtype.val).length
  stopIf (original.length > sizeMax - extra - 2) .size
  request (.error .malloc)
  let updated := Bytes.zeros (original.length + extra + 2)
  let w ← rounds (updateRound old.1) (original.length + 1) { rest := original, updated, used := 0 }
  match new with
  | none => pure (w.updated.take w.used)
  | some name => do
    let updated ← store w.updated w.used (name.1 ++ [0])
    let updated ← store updated (w.used + name.1.length) [lineFeed]
    pure (updated.take (w.used + name.1.length + 1))

noncomputable def keptLines (old content : Bytes) : Bytes :=
  ((runs endsLine content).filter fun line => !dropped old line).flatMap (· ++ [lineFeed])

theorem keptLines_scan (old content : Bytes) :
    keptLines old content =
      (if front endsLine content = [] ∨ dropped old (front endsLine content) then []
        else front endsLine content ++ [lineFeed]) ++ keptLines old (behind endsLine content) := by
  unfold keptLines
  rw [runs_scan, List.filter_append, List.flatMap_append]
  by_cases empty : front endsLine content = []
  · simp [empty]
  · cases same : dropped old (front endsLine content) <;> simp [empty, same]

structure Progress (old original : Bytes) (capacity : Nat) (w : Rewrite) : Prop where
  clean : 0 ∉ w.rest
  buffer : w.updated.length = capacity
  written : w.updated.take w.used ++ keptLines old w.rest = keptLines old original
  room : w.used + ((runs endsLine w.rest).map fun run => run.length + 1).sum ≤ original.length + 1

theorem updateRound_serves {old original : Bytes} {capacity : Nat} (large : original.length + 2 ≤ capacity)
    {w : Rewrite} (progress : Progress old original capacity w) :
    Serves (updateRound old w) (Sum.elim
      (fun w' => Progress old original capacity w' ∧ w'.rest.length < w.rest.length)
      fun w' => w'.updated.length = capacity ∧ w'.used ≤ original.length + 1 ∧
        w'.updated.take w'.used = keptLines old original) := by
  obtain ⟨clean, buffer, written, room⟩ := progress
  unfold updateRound
  by_cases done : w.rest = []
  · rw [if_pos done]
    refine Serves.pure ⟨buffer, by omega, ?_⟩
    rw [done] at written
    simpa [keptLines, runs_nil] using written
  · rw [if_neg done]
    have shorter := (@behind_length _ endsLine _ done).1
    have clean' : 0 ∉ behind endsLine w.rest := fun inside => clean (behind_subset inside)
    rw [runs_scan, List.map_append, List.sum_append] at room
    rw [keptLines_scan] at written
    simp only
    by_cases empty : front endsLine w.rest = []
    · rw [if_pos empty]
      rw [if_pos (.inl empty), List.nil_append] at written
      exact Serves.pure ⟨⟨clean', buffer, written, by simp only; omega⟩, shorter⟩
    · have nonzero : ¬ 0 ∈ front endsLine w.rest := fun inside => clean (front_subset inside)
      rw [if_neg empty]
      refine (Serves.stopIf nonzero _).bind fun _ _ => (Serves.request _).bind fun _ _ => ?_
      by_cases goes : dropped old (front endsLine w.rest) = true
      · rw [if_pos goes]
        rw [if_pos (.inr goes), List.nil_append] at written
        exact Serves.pure ⟨⟨clean', buffer, written, by simp only; omega⟩, shorter⟩
      · rw [if_neg goes]
        rw [if_neg (not_or.mpr ⟨empty, goes⟩)] at written
        rw [if_neg empty] at room
        simp only [List.map_cons, List.map_nil, List.sum_cons, List.sum_nil] at room
        have inLine : w.used + (front endsLine w.rest).length ≤ w.updated.length := by omega
        refine (Serves.store inLine).bind fun first stored => ?_
        have length := splice_length inLine
        rw [← stored] at length
        have inFeed : w.used + (front endsLine w.rest).length + [lineFeed].length ≤ first.length := by
          rw [length, buffer, List.length_singleton]
          omega
        refine (Serves.store inFeed).bind fun second ended => ?_
        have all : second.take (w.used + (front endsLine w.rest).length + 1) =
            w.updated.take w.used ++ (front endsLine w.rest ++ [lineFeed]) := by
          rw [ended, take_splice (by omega) (Nat.le_refl 1), stored,
            take_splice (by omega) (Nat.le_refl _), List.take_length, List.append_assoc]
          rfl
        refine Serves.pure ⟨⟨clean', ?_, ?_, ?_⟩, shorter⟩
        · show second.length = capacity
          rw [ended, splice_length inFeed, length, buffer]
        · show second.take _ ++ _ = _
          rw [all, List.append_assoc, written]
        · simp only
          omega

noncomputable def rewritten (original old : Bytes) (new : Option Name) : Bytes :=
  keptLines old original ++ new.elim [] fun name => name.1 ++ [lineFeed]

theorem updateListfile_serves {original : Bytes} {old : Name} {new : Option Name}
    (clean : 0 ∉ original) (fits : original.length ≤ sizeMax - (new.elim [] Subtype.val).length - 2) :
    Serves (updateListfile original old new) fun updated => updated = rewritten original old.1 new := by
  unfold updateListfile rewritten
  simp only
  refine (Serves.stopIf (Nat.not_lt.mpr fits) _).bind fun _ _ => (Serves.request _).bind fun _ _ => ?_
  refine (Serves.rounds
    (Progress old.1 original (original.length + (new.elim [] Subtype.val).length + 2))
    (fun w => w.rest.length) (fun w => updateRound_serves (by omega)) ?_ (Nat.lt_succ_self _)).bind ?_
  · exact ⟨clean, Bytes.zeros_length _, by simp, by simpa using runs_room original⟩
  · rintro w ⟨buffer, used, written⟩
    cases new with
    | none =>
      refine Serves.pure ?_
      rw [written]
      exact (List.append_nil _).symm
    | some name =>
      have buffer : w.updated.length = original.length + name.1.length + 2 := buffer
      have inName : w.used + (name.1 ++ [0]).length ≤ w.updated.length := by
        rw [List.length_append, List.length_singleton]
        omega
      refine (Serves.store inName).bind fun first stored => ?_
      have length := splice_length inName
      rw [← stored] at length
      have inFeed : w.used + name.1.length + [lineFeed].length ≤ first.length := by
        rw [length, buffer, List.length_singleton]
        omega
      refine (Serves.store inFeed).bind fun second ended => Serves.pure ?_
      rw [ended, take_splice (by omega) (Nat.le_refl 1), stored,
        take_splice (by omega) (by rw [List.length_append]; omega), List.take_left, written,
        List.append_assoc]
      rfl

theorem updateListfile_exact {original : Bytes} (old : Name) (new : Option Name)
    (clean : 0 ∉ original) :
    updateListfile original old new Faults.healthy =
      (if original.length > sizeMax - (new.elim [] Subtype.val).length - 2 then
        .error (.error .size) Faults.healthy
      else .ok (rewritten original old.1 new) Faults.healthy) ∧
    Ensures (updateListfile original old new) fun updated => updated = rewritten original old.1 new := by
  by_cases large : original.length > sizeMax - (new.elim [] Subtype.val).length - 2
  · have refused : ∀ plan, updateListfile original old new plan = .error (.error .size) plan :=
      fun plan => bind_of_error (stopIf_true large _ plan) _
    rw [if_pos large]
    refine ⟨refused _, fun plan => ?_⟩
    rw [refused plan]
    trivial
  · have serves := @updateListfile_serves _ old new clean (Nat.not_lt.mp large)
    rw [if_neg large]
    exact ⟨serves.run, serves.ensures⟩

-- "A" CR "B": the line of the old name goes, the other one gains a line feed
theorem updateListfile_exact_lines :
    updateListfile [65, 13, 66] ⟨[65], by decide⟩ none Faults.healthy =
      .ok (rewritten [65, 13, 66] [65] none) Faults.healthy :=
  (updateListfile_exact ⟨[65], by decide⟩ none (by decide)).1

theorem scanLines_shrinks (data : Bytes) (more : data ≠ []) :
    (front endsLine data, behind endsLine data).2.length < data.length := (behind_length more).1

def scanLines : Bytes → List Bytes :=
  scanAll (fun data => (front endsLine data, behind endsLine data)) scanLines_shrinks

def scanEntry (data : Bytes) : Bytes × Bytes :=
  let line := data.takeWhile (· ≠ lineFeed)
  (if line.getLast? = some carriageReturn then line.dropLast else line,
    (data.dropWhile (· ≠ lineFeed)).drop 1)

theorem scanEntry_shrinks (data : Bytes) (more : data ≠ []) :
    (scanEntry data).2.length < data.length := by
  have positive : 0 < data.length := List.length_pos_iff.mpr more
  have shorter := (List.dropWhile_sublist (p := fun b => decide (b ≠ lineFeed)) (l := data)).length_le
  show ((data.dropWhile _).drop 1).length < _
  rw [List.length_drop]
  omega

def refuseNul (names : List Bytes) : Except Error (List Bytes) :=
  if names.any (0 ∈ ·) then .error .format else .ok names

-- the names that `update_listfile` compares
def updateListfileNames (content : Bytes) : Except Error (List Bytes) := refuseNul (scanLines content)

-- the names that `patch_rewrite_listfile` looks up
def patchRewriteListfileNames (content : Bytes) : Except Error (List Bytes) :=
  refuseNul (scanLines content)

-- the names that `patch_entries` gives to live entries; a line with a NUL is passed over
def patchEntriesNames (content : Bytes) : List Bytes :=
  (scanAll scanEntry scanEntry_shrinks content).filter fun name => !decide (0 ∈ name)

/-- The names of a listfile, as its format describes them. -/
noncomputable def names (content : Bytes) : List Bytes :=
  runs (fun b => endsLine b || b = semicolon) content

theorem scanLines_eq (content : Bytes) : scanLines content = runs endsLine content :=
  scanAll_runs _ content

theorem refuseNul_scanLines {content : Bytes} (clean : 0 ∉ content) :
    refuseNul (scanLines content) = .ok (runs endsLine content) := by
  have none : ¬ (runs endsLine content).any (fun name => decide (0 ∈ name)) = true := by
    rw [List.any_eq_true]
    rintro ⟨run, found, nul⟩
    exact clean (runs_subset found (of_decide_eq_true nul))
  rw [refuseNul, scanLines_eq, if_neg none]

def scanEntries : Bytes → List Bytes := scanAll scanEntry scanEntry_shrinks

def strip (line : Bytes) : Bytes :=
  if line.getLast? = some carriageReturn then line.dropLast else line

theorem scanEntries_last {line : Bytes} (unbroken : lineFeed ∉ line) :
    scanEntries line = if strip line = [] then [] else [strip line] := by
  have all : ∀ b ∈ line, decide (b ≠ lineFeed) = true :=
    fun b inside => decide_eq_true fun same => unbroken (same ▸ inside)
  have scan : scanEntry line = (strip line, []) := by
    simp only [scanEntry]
    rw [List.takeWhile_eq_self_iff.mpr all, List.dropWhile_eq_nil_iff.mpr all]
    rfl
  unfold scanEntries
  rw [scanAll]
  by_cases empty : line = []
  · rw [dif_pos empty, empty]
    rfl
  · rw [dif_neg empty]
    simp only [scan]
    rw [scanAll, dif_pos rfl]

theorem scanEntries_line {line rest : Bytes} (unbroken : lineFeed ∉ line) :
    scanEntries (line ++ lineFeed :: rest) =
      (if strip line = [] then [] else [strip line]) ++ scanEntries rest := by
  have all : ∀ b ∈ line, decide (b ≠ lineFeed) = true :=
    fun b inside => decide_eq_true fun same => unbroken (same ▸ inside)
  have scan : scanEntry (line ++ lineFeed :: rest) = (strip line, rest) := by
    simp only [scanEntry]
    rw [List.takeWhile_append_of_pos all, List.dropWhile_append_of_pos all]
    simp [strip]
  unfold scanEntries
  rw [scanAll, dif_neg (by simp)]
  simp only [scan]
  split <;> rfl

theorem line_induction {motive : Bytes → Prop} (last : ∀ line, lineFeed ∉ line → motive line)
    (step : ∀ line rest, lineFeed ∉ line → motive rest → motive (line ++ lineFeed :: rest))
    (content : Bytes) : motive content := by
  by_cases broken : lineFeed ∈ content
  · obtain ⟨line, rest, same, unbroken⟩ := List.eq_append_cons_of_mem broken
    have shorter : rest.length < content.length := by
      rw [same, List.length_append, List.length_cons]
      omega
    rw [same]
    exact step line rest unbroken (line_induction last step rest)
  · exact last content broken
termination_by content.length

def Stray (content : Bytes) : Prop :=
  ∃ before b after, content = before ++ carriageReturn :: b :: after ∧ b ≠ lineFeed

theorem strip_cases (line : Bytes) :
    strip line = line ∧ line.getLast? ≠ some carriageReturn ∨ line = strip line ++ [carriageReturn] := by
  unfold strip
  split
  next last =>
    have more : line ≠ [] := by
      rintro rfl
      nomatch last
    rw [List.getLast?_eq_some_getLast more, Option.some.injEq] at last
    exact .inr (by rw [← last, List.dropLast_concat_getLast])
  next last => exact .inl ⟨rfl, last⟩

theorem stray_of_strip {line : Bytes} (left : carriageReturn ∈ strip line) :
    ∃ before b after, line = before ++ carriageReturn :: b :: after := by
  obtain ⟨before, after, same⟩ := List.append_of_mem left
  obtain ⟨whole, last⟩ | cut := strip_cases line
  · rw [whole] at same
    cases after with
    | nil => exact absurd (by rw [same, List.getLast?_concat]) last
    | cons b after => exact ⟨before, b, after, same⟩
  · rw [same, List.append_assoc, List.cons_append] at cut
    cases after with
    | nil => exact ⟨before, _, [], cut⟩
    | cons b after => exact ⟨before, b, after ++ [carriageReturn], cut⟩

theorem strip_of_stray {before after : Bytes} {b : UInt8} :
    carriageReturn ∈ strip (before ++ carriageReturn :: b :: after) := by
  obtain ⟨whole, _⟩ | cut := strip_cases (before ++ carriageReturn :: b :: after)
  · rw [whole]
    simp
  · have short := congrArg List.dropLast cut
    rw [List.dropLast_concat, List.dropLast_append_of_ne_nil (by simp)] at short
    rw [← short]
    simp

theorem strip_subset {line : Bytes} {b : UInt8} (found : b ∈ strip line) : b ∈ line := by
  obtain ⟨whole, _⟩ | cut := strip_cases line
  · rwa [whole] at found
  · rw [cut]
    exact List.mem_append_left _ found

theorem runs_strip {line : Bytes} (unbroken : lineFeed ∉ line) (clean : carriageReturn ∉ strip line) :
    runs endsLine line = if strip line = [] then [] else [strip line] := by
  have open_ : ∀ b ∈ strip line, endsLine b = false := by
    intro b found
    simp only [endsLine, Bool.or_eq_false_iff, decide_eq_false_iff_not]
    exact ⟨fun same => unbroken (same ▸ strip_subset found), fun same => clean (same ▸ found)⟩
  rw [← runs_whole open_]
  obtain ⟨whole, _⟩ | cut := strip_cases line
  · rw [whole]
  · conv_lhs => rw [cut]
    rw [runs_append_cons _ _ (by rfl), runs_nil, List.append_nil]

theorem scanEntries_eq {content : Bytes} (paired : ¬ Stray content) :
    scanEntries content = runs endsLine content := by
  induction content using line_induction with
  | last line unbroken =>
    have clean : carriageReturn ∉ strip line := by
      intro left
      obtain ⟨before, b, after, same⟩ := stray_of_strip left
      refine paired ⟨before, b, after, same, ?_⟩
      rintro rfl
      exact unbroken (by simp [same])
    rw [scanEntries_last unbroken, runs_strip unbroken clean]
  | step line rest unbroken ih =>
    have clean : carriageReturn ∉ strip line := by
      intro left
      obtain ⟨before, b, after, same⟩ := stray_of_strip left
      refine paired ⟨before, b, after ++ lineFeed :: rest, by simp [same], ?_⟩
      rintro rfl
      exact unbroken (by simp [same])
    have paired' : ¬ Stray rest := by
      rintro ⟨before, b, after, rfl, other⟩
      exact paired ⟨line ++ lineFeed :: before, b, after, by simp, other⟩
    rw [scanEntries_line unbroken, runs_append_cons _ _ (by rfl), runs_strip unbroken clean, ih paired']

theorem scanEntries_subset {content name : Bytes} (found : name ∈ scanEntries content) {b : UInt8}
    (inside : b ∈ name) : b ∈ content := by
  have only : ∀ {line : Bytes}, name ∈ (if strip line = [] then [] else [strip line]) → b ∈ line := by
    intro line here
    split at here
    next => exact absurd here List.not_mem_nil
    next =>
      rw [List.mem_singleton] at here
      exact strip_subset (here ▸ inside)
  induction content using line_induction with
  | last line unbroken =>
    rw [scanEntries_last unbroken] at found
    exact only found
  | step line rest unbroken ih =>
    rw [scanEntries_line unbroken, List.mem_append] at found
    obtain here | later := found
    · exact List.mem_append_left _ (only here)
    · exact List.mem_append_right _ (List.mem_cons_of_mem _ (ih later))

theorem scanEntries_stray {content : Bytes} (stray : Stray content) :
    ∃ name ∈ scanEntries content, carriageReturn ∈ name := by
  have kept : ∀ {line : Bytes}, carriageReturn ∈ strip line →
      strip line ∈ if strip line = [] then [] else [strip line] := by
    intro line inside
    rw [if_neg (List.ne_nil_of_mem inside)]
    exact List.mem_singleton_self _
  induction content using line_induction with
  | last line unbroken =>
    obtain ⟨before, b, after, rfl, _⟩ := stray
    rw [scanEntries_last unbroken]
    exact ⟨_, kept strip_of_stray, strip_of_stray⟩
  | step line rest unbroken ih =>
    obtain ⟨before, b, after, same, other⟩ := stray
    rw [scanEntries_line unbroken]
    obtain ⟨w, _, tail⟩ | ⟨w, rfl, tail⟩ := List.append_eq_append_iff.mp same
    · -- the return stands behind this line
      cases w with
      | nil => exact absurd (List.cons.inj tail).1 (by decide)
      | cons c w =>
        obtain ⟨_, rfl⟩ := List.cons.inj tail
        obtain ⟨name, found, inside⟩ := ih ⟨w, b, after, rfl, other⟩
        exact ⟨name, List.mem_append_right _ found, inside⟩
    · match w, tail with
      | [], tail => exact absurd (List.cons.inj tail).1 (by decide)
      | [_], tail => exact absurd (List.cons.inj (List.cons.inj tail).2).1 other
      | c :: d :: w, tail =>
        obtain ⟨first, tail⟩ := List.cons.inj tail
        obtain ⟨second, _⟩ := List.cons.inj tail
        rw [← first, ← second]
        exact ⟨_, List.mem_append_left _ (kept strip_of_stray), strip_of_stray⟩

theorem unjoined_of_names {content : Bytes} (clean : 0 ∉ content)
    (same : updateListfileNames content = .ok (names content)) : semicolon ∉ content := by
  intro inside
  have listed : runs endsLine content = names content :=
    Except.ok.inj ((refuseNul_scanLines clean).symm.trans same)
  obtain ⟨run, found, here⟩ := runs_cover inside (show endsLine semicolon = false from rfl)
  rw [listed] at found
  exact absurd ((mem_runs found).2 _ here) (by decide)

-- The splitters agree with the format on a content exactly when it has no semicolon and every
-- carriage return in it stands before a line feed or at the end.
theorem splitters_exact {content : Bytes} (clean : 0 ∉ content) :
    (updateListfileNames content = .ok (names content) ∧
      patchEntriesNames content = names content ∧
      patchRewriteListfileNames content = .ok (names content)) ↔
    semicolon ∉ content ∧
      ∀ before b after, content = before ++ carriageReturn :: b :: after → b = lineFeed := by
  have scanned := refuseNul_scanLines clean
  constructor
  · rintro ⟨updated, entries, _⟩
    refine ⟨unjoined_of_names clean updated, fun before b after split => ?_⟩
    by_contra other
    obtain ⟨name, found, here⟩ := scanEntries_stray ⟨before, b, after, split, other⟩
    have unnul : 0 ∉ name := fun nul => clean (scanEntries_subset found nul)
    have listed : name ∈ patchEntriesNames content :=
      List.mem_filter.mpr ⟨found, by simpa using unnul⟩
    rw [entries] at listed
    exact absurd ((mem_runs listed).2 _ here) (by decide)
  · rintro ⟨unjoined, paired⟩
    have same : runs endsLine content = names content := by
      refine runs_congr fun b inside => ?_
      have other : decide (b = semicolon) = false :=
        decide_eq_false fun equal => unjoined (equal ▸ inside)
      rw [other, Bool.or_false]
    have entries : scanEntries content = runs endsLine content := by
      refine scanEntries_eq ?_
      rintro ⟨before, b, after, split, other⟩
      exact other (paired before b after split)
    refine ⟨scanned.trans (congrArg _ same), ?_, scanned.trans (congrArg _ same)⟩
    show (scanEntries content).filter _ = _
    rw [entries, ← same, List.filter_eq_self]
    intro run found
    simpa using fun nul => clean (runs_subset found nul)

theorem splitters_exact_lines :
    updateListfileNames [65, 10, 66] = .ok (names [65, 10, 66]) := by
  refine ((splitters_exact (by decide)).mpr ⟨by decide, fun before b after split => ?_⟩).1
  have inside : carriageReturn ∈ [65, 10, 66] := by
    rw [split]
    simp
  exact absurd inside (by decide)

-- "A", a carriage return and "B" are one line to the entry-naming splitter, and two to the others
theorem splitters_stray_return : ¬ ∀ content : Bytes, 0 ∉ content →
    updateListfileNames content = .ok (names content) ∧
      patchEntriesNames content = names content ∧
      patchRewriteListfileNames content = .ok (names content) := by
  intro agree
  obtain ⟨-, entries, -⟩ := agree [65, 13, 66] (by decide)
  have apart : names [65, 13, 66] = [[65], [66]] := by decide +kernel
  have whole : patchEntriesNames [65, 13, 66] = [[65, 13, 66]] := by decide +kernel
  rw [apart, whole] at entries
  exact absurd entries (by decide)

end Listfile

end LibMpq
