import LightOss.StepSystem
import LightOss.Validation

/-! # The storage identity — several instances, one file

    `LocalStorage.Identity` reads the identity file, or creates it for exclusive
    use and writes a new UUID into it.  Creation and writing are two steps of the
    file system: an instance that reads between them finds an empty file and takes
    it for an invalid identity.  Without such a read all instances agree.

    A run passes through three phases (`Phase`): the file is missing, created by one
    instance, or written by it.  What a step does in each of them is `phase_missing`,
    `phase_created` and `phase_written`; in each the calls that returned agree
    (`agreed_of_phase`).  `Call.remaining` bounds the steps of a call. -/

namespace StorageIdentity

open StepSystem Validation

-- `uuid.Parse`, which says why it refuses a text
variable (parse : String → Except String Unit)

/-- What `uuid.NewString` returns: a UUID without white space around it. -/
structure Uuid where
  text : String
  parsed : parse text = .ok ()
  bare : trimSpace (text ++ "\n") = text

/-- What reading the file may report. -/
inductive IdentityErr where
  | notExist
  | invalid (text : String)
  deriving DecidableEq

/-- The closure `readIdentity`, on the contents of the identity file. -/
def readIdentity (file : Option String) : Except IdentityErr String :=
  match file with
  | none => .error .notExist
  | some contents =>
      match parse (trimSpace contents) with
      | .ok () => .ok (trimSpace contents)
      | .error cause => .error (.invalid ("storage identity is invalid: " ++ cause))

/-! ## The calls -/

/-- Where a call of `Identity` stands: before which of its file operations, or returned. -/
inductive Call where
  | reading
  | opening
  | rereading
  | writing
  | syncing
  | closing
  | returned (result : Except IdentityErr String)

variable {ι : Type} [DecidableEq ι]

/-- The identity file, if it is there, and the call of every instance. -/
structure Root (ι : Type) where
  file : Option String
  call : ι → Call

/-- One instance goes on. -/
def Root.goto (s : Root ι) (i : ι) (call : Call) : Root ι :=
  { s with call := Function.update s.call i call }

-- the UUID each instance would store
variable (newString : ι → Uuid parse)

/-- The next file operation of the instance `i`; none of them fails. -/
def advance (s : Root ι) (i : ι) : Root ι :=
  match s.call i with
  | .reading =>
      match readIdentity parse s.file with
      | .ok identity => s.goto i (.returned (.ok identity))
      | .error .notExist => s.goto i .opening
      | .error err => s.goto i (.returned (.error err))
  -- `O_WRONLY|O_CREATE|O_EXCL`
  | .opening =>
      match s.file with
      | some _ => s.goto i .rereading
      | none => { s with file := some "" }.goto i .writing
  | .rereading => s.goto i (.returned (readIdentity parse s.file))
  | .writing => { s with file := some ((newString i).text ++ "\n") }.goto i .syncing
  | .syncing => s.goto i .closing
  | .closing => s.goto i (.returned (.ok (newString i).text))
  | .returned _ => s

/-- Any instance that has not returned may take the next step. -/
def calls : System (Root ι) ι where
  start s := s.file = none ∧ ∀ i, s.call i = .reading
  step s i t := (∀ result, s.call i ≠ .returned result) ∧ t = advance parse newString s i

/-- Every call that returned did so without error, with the identity that is stored. -/
def Agreed (s : Root ι) : Prop :=
  ∃ identity, ∀ i result, s.call i = .returned result →
    result = .ok identity ∧ ∃ contents, s.file = some contents ∧ trimSpace contents = identity

/-- The step reads a file that was created and not yet written. -/
def EarlyRead (s : Root ι) (i : ι) : Prop :=
  (s.call i = .reading ∨ s.call i = .rereading) ∧ s.file = some ""

/-! ## The invariant -/

/-- The call did not create the file and did not return. -/
def Waiting (call : Call) : Prop := call = .reading ∨ call = .opening ∨ call = .rereading

/-- The file is missing, created by one instance, or written by it. -/
inductive Phase (s : Root ι) : Prop where
  | missing : s.file = none → (∀ i, s.call i = .reading ∨ s.call i = .opening) → Phase s
  | created (j : ι) : s.file = some "" → s.call j = .writing →
      (∀ i, i ≠ j → Waiting (s.call i)) → Phase s
  | written (j : ι) : s.file = some ((newString j).text ++ "\n") →
      (s.call j = .syncing ∨ s.call j = .closing ∨ s.call j = .returned (.ok (newString j).text)) →
      (∀ i, i ≠ j → Waiting (s.call i) ∨ s.call i = .returned (.ok (newString j).text)) → Phase s

variable {parse newString}

@[simp] theorem goto_call_self (s : Root ι) (i : ι) (call : Call) :
    (s.goto i call).call i = call := by
  rw [Root.goto]
  exact Function.update_self i call s.call

theorem goto_call_other (s : Root ι) {i j : ι} (call : Call) (h : j ≠ i) :
    (s.goto i call).call j = s.call j := by
  rw [Root.goto]
  exact Function.update_of_ne h call s.call

/-- A file that was written reads as what was written. -/
theorem readIdentity_written (u : Uuid parse) :
    readIdentity parse (some (u.text ++ "\n")) = .ok u.text := by
  rw [readIdentity, u.bare, u.parsed]

/-- A call that is moved, and the others where they stand. -/
theorem goto_others {s : Root ι} {i : ι} {call : Call} {P : ι → Call → Prop}
    (hall : ∀ j, j ≠ i → P j (s.call j)) (hnew : P i call) : ∀ j, P j ((s.goto i call).call j) := by
  intro j
  by_cases hj : j = i
  · rw [hj, goto_call_self]
    exact hnew
  · rw [goto_call_other _ _ hj]
    exact hall j hj

/-- While the file is missing, a step reads that it is, or creates it. -/
theorem phase_missing {s : Root ι} {i : ι} (hfile : s.file = none)
    (hwait : ∀ i, s.call i = .reading ∨ s.call i = .opening) :
    Phase parse newString (advance parse newString s i) := by
  rcases hwait i with hi | hi
  · have hnext : advance parse newString s i = s.goto i .opening := by
      rw [advance, hi, hfile]
      rfl
    rw [hnext]
    exact Phase.missing hfile (goto_others (P := fun _ call => call = .reading ∨ call = .opening)
      (fun j _ => hwait j) (Or.inr rfl))
  · have hnext : advance parse newString s i = { s with file := some "" }.goto i .writing := by
      rw [advance, hi, hfile]
    rw [hnext]
    refine Phase.created i rfl (goto_call_self _ _ _) fun j hj => ?_
    rw [goto_call_other _ _ hj]
    exact (hwait j).imp_right Or.inl

/-- While the file is empty, only its creator goes on, and others find that it exists. -/
theorem phase_created {s : Root ι} {i j : ι} (hfile : s.file = some "") (hj : s.call j = .writing)
    (hwait : ∀ i, i ≠ j → Waiting (s.call i)) (hearly : ¬ EarlyRead s i) :
    Phase parse newString (advance parse newString s i) := by
  by_cases hij : i = j
  · subst hij
    have hnext : advance parse newString s i
        = { s with file := some ((newString i).text ++ "\n") }.goto i .syncing := by
      rw [advance, hj]
    rw [hnext]
    refine Phase.written i rfl (Or.inl (goto_call_self _ _ _)) fun k hk => Or.inl ?_
    rw [goto_call_other _ _ hk]
    exact hwait k hk
  · rcases hwait i hij with hi | hi | hi
    · exact absurd ⟨Or.inl hi, hfile⟩ hearly
    · have hnext : advance parse newString s i = s.goto i .rereading := by
        rw [advance, hi, hfile]
      rw [hnext]
      refine Phase.created j hfile ((goto_call_other _ _ (Ne.symm hij)).trans hj) ?_
      exact goto_others (P := fun k call => k ≠ j → Waiting call) (fun k _ => hwait k)
        fun _ => Or.inr (Or.inr rfl)
    · exact absurd ⟨Or.inr hi, hfile⟩ hearly

/-- Once the file is written, every read returns its identity. -/
theorem phase_written {s : Root ι} {i j : ι} (hfile : s.file = some ((newString j).text ++ "\n"))
    (hj : s.call j = .syncing ∨ s.call j = .closing ∨ s.call j = .returned (.ok (newString j).text))
    (hwait : ∀ i, i ≠ j → Waiting (s.call i) ∨ s.call i = .returned (.ok (newString j).text))
    (hopen : ∀ result, s.call i ≠ .returned result) :
    Phase parse newString (advance parse newString s i) := by
  have hread := readIdentity_written (newString j)
  by_cases hij : i = j
  · subst hij
    have hothers : ∀ call k, k ≠ i → Waiting ((s.goto i call).call k)
        ∨ (s.goto i call).call k = .returned (.ok (newString i).text) := by
      intro call k hk
      rw [goto_call_other _ _ hk]
      exact hwait k hk
    -- the creator syncs, closes and returns what it wrote
    rcases hj with hi | hi | hi
    · have hnext : advance parse newString s i = s.goto i .closing := by
        rw [advance, hi]
      rw [hnext]
      exact Phase.written i hfile (Or.inr (Or.inl (goto_call_self _ _ _))) (hothers _)
    · have hnext : advance parse newString s i
          = s.goto i (.returned (.ok (newString i).text)) := by
        rw [advance, hi]
      rw [hnext]
      exact Phase.written i hfile (Or.inr (Or.inr (goto_call_self _ _ _))) (hothers _)
    · exact absurd hi (hopen _)
  · have hcreator : ∀ call, (s.goto i call).call j = s.call j :=
      fun call => goto_call_other _ _ (Ne.symm hij)
    have hreader : ∀ call, (Waiting call ∨ call = .returned (.ok (newString j).text)) →
        Phase parse newString (s.goto i call) := by
      intro call hcall
      refine Phase.written j hfile ((hcreator call).symm ▸ hj) ?_
      exact goto_others (P := fun k c => k ≠ j → Waiting c ∨ c = .returned (.ok (newString j).text))
        (fun k _ => hwait k) fun _ => hcall
    -- anybody else reads it, or fails to create it and reads it then
    rcases hwait i hij with (hi | hi | hi) | hi
    · have hnext : advance parse newString s i
          = s.goto i (.returned (.ok (newString j).text)) := by
        rw [advance, hi, hfile, hread]
      rw [hnext]
      exact hreader _ (Or.inr rfl)
    · have hnext : advance parse newString s i = s.goto i .rereading := by
        rw [advance, hi, hfile]
      rw [hnext]
      exact hreader _ (Or.inl (Or.inr (Or.inr rfl)))
    · have hnext : advance parse newString s i
          = s.goto i (.returned (.ok (newString j).text)) := by
        rw [advance, hi, hfile, hread]
      rw [hnext]
      exact hreader _ (Or.inr rfl)
    · exact absurd hi (hopen _)

/-- One step that reads no empty file keeps the phases. -/
theorem phase_step {s t : Root ι} {i : ι} (h : Phase parse newString s) (hearly : ¬ EarlyRead s i)
    (hstep : (calls parse newString).step s i t) : Phase parse newString t := by
  obtain ⟨hopen, rfl⟩ := hstep
  cases h with
  | missing hfile hwait => exact phase_missing hfile hwait
  | created j hfile hj hwait => exact phase_created hfile hj hwait hearly
  | written j hfile hj hwait => exact phase_written hfile hj hwait hopen

/-- In every phase the calls that returned agree. -/
theorem agreed_of_phase {s : Root ι} (h : Phase parse newString s) : Agreed s := by
  cases h with
  | missing hfile hwait =>
      refine ⟨"", fun i result hi => ?_⟩
      rcases hwait i with h | h <;> exact nomatch h.symm.trans hi
  | created j hfile hj hwait =>
      refine ⟨"", fun i result hi => ?_⟩
      by_cases hij : i = j
      · subst hij
        exact nomatch hj.symm.trans hi
      · rcases hwait i hij with h | h | h <;> exact nomatch h.symm.trans hi
  | written j hfile hj hwait =>
      refine ⟨(newString j).text, fun i result hi => ⟨?_, _, hfile, (newString j).bare⟩⟩
      by_cases hij : i = j
      · subst hij
        rcases hj with h | h | h
        · exact nomatch h.symm.trans hi
        · exact nomatch h.symm.trans hi
        · cases h.symm.trans hi
          rfl
      · rcases hwait i hij with (h | h | h) | h
        · exact nomatch h.symm.trans hi
        · exact nomatch h.symm.trans hi
        · exact nomatch h.symm.trans hi
        · cases h.symm.trans hi
          rfl

/-! ## Runs -/

/-- A step of one instance is not one of another. -/
theorem advance_other {s : Root ι} {i j : ι} (h : j ≠ i) :
    (advance parse newString s i).call j = s.call j := by
  rw [advance]
  split
  · split <;> exact goto_call_other _ _ h
  · split <;> exact goto_call_other _ _ h
  all_goals first | exact goto_call_other _ _ h | rfl

/-- A call that returned is not touched again. -/
theorem returned_stable {s t : Root ι} {σ : List ι} {i : ι} {result : Except IdentityErr String}
    (hrun : Run (calls parse newString) s σ t) (h : s.call i = .returned result) :
    t.call i = .returned result := by
  refine hrun.along (P := fun s => s.call i = .returned result) ?_ h
  rintro k - s t hs ⟨hopen, rfl⟩
  have hne : i ≠ k := by
    rintro rfl
    exact hopen result hs
  rw [advance_other hne]
  exact hs

/-- An early read ends the call with an error. -/
theorem advance_early (newString : ι → Uuid parse) {cause : String}
    (hempty : parse "" = .error cause)
    {s : Root ι} {i : ι} (h : EarlyRead s i) : ∃ err,
    (advance parse newString s i).call i = .returned (.error err) := by
  obtain ⟨hi, hfile⟩ := h
  have hnone : trimSpace "" = "" := by decide
  have hread : readIdentity parse s.file
      = .error (.invalid ("storage identity is invalid: " ++ cause)) := by
    rw [hfile, readIdentity, hnone, hempty]
  refine ⟨.invalid ("storage identity is invalid: " ++ cause), ?_⟩
  rcases hi with hi | hi
  · rw [advance, hi, hread]
    exact goto_call_self _ _ _
  · rw [advance, hi, hread]
    exact goto_call_self _ _ _

/-- A run without early reads, or one that left an error. -/
theorem guarded_or_failed {cause : String} (hempty : parse "" = .error cause) {s t : Root ι}
    {σ : List ι} (hrun : Run (calls parse newString) s σ t) :
    Run ((calls parse newString).guarded fun s i => ¬ EarlyRead s i) s σ t
      ∨ ∃ i err, t.call i = .returned (.error err) := by
  induction hrun with
  | nil s => exact Or.inl (.nil s)
  | @cons s m t i σ hstep hrest ih =>
      by_cases hearly : EarlyRead s i
      · obtain ⟨err, herr⟩ := advance_early newString hempty hearly
        exact Or.inr ⟨i, err, returned_stable hrest (hstep.2 ▸ herr)⟩
      · exact ih.imp_left fun hguarded => .cons ⟨hstep, hearly⟩ hguarded

/-- The file operations a call still has before it at most. -/
def Call.remaining : Call → Nat
  | .reading => 5
  | .opening => 4
  | .writing => 3
  | .syncing => 2
  | .closing | .rereading => 1
  | .returned _ => 0

/-- An open call gets closer to its end. -/
theorem advance_remaining (newString : ι → Uuid parse) {s : Root ι} {i : ι}
    (hopen : ∀ result, s.call i ≠ .returned result) :
    ((advance parse newString s i).call i).remaining + 1 ≤ (s.call i).remaining := by
  rw [advance]
  cases hi : s.call i with
  | reading =>
      dsimp only
      split <;> simp [Call.remaining]
  | opening =>
      dsimp only
      split <;> simp [Call.remaining]
  | rereading => simp [Call.remaining]
  | writing => simp [Call.remaining]
  | syncing => simp [Call.remaining]
  | closing => simp [Call.remaining]
  | returned result => exact absurd hi (hopen result)

/-- No call takes more than its steps. -/
theorem count_remaining {s t : Root ι} {σ : List ι} (hrun : Run (calls parse newString) s σ t)
    (i : ι) : σ.count i + (t.call i).remaining ≤ (s.call i).remaining := by
  induction hrun with
  | nil s => exact Nat.le_of_eq (Nat.zero_add _)
  | @cons s m t k σ hstep hrest ih =>
      obtain ⟨hopen, rfl⟩ := hstep
      by_cases hk : k = i
      · subst hk
        have hless := advance_remaining newString hopen
        rw [List.count_cons_self]
        omega
      · rw [advance_other (Ne.symm hk)] at ih
        rw [List.count_cons_of_ne hk]
        exact ih

/-- **Identity agreement.**  In a run of any instances on one empty root the calls agree
    exactly when none of them reads the file between its creation and its writing; and
    every call returns within five steps of its own. -/
theorem identity_agreement {cause : String} (hempty : parse "" = .error cause) {s t : Root ι}
    {σ : List ι} (hstart : (calls parse newString).start s)
    (hrun : Run (calls parse newString) s σ t) :
    (Agreed t ↔ Run ((calls parse newString).guarded fun s i => ¬ EarlyRead s i) s σ t)
    ∧ ∀ i, σ.count i ≤ 5 ∧ ((∃ result, t.call i = .returned result)
      ∨ ∃ u, (calls parse newString).step t i u) := by
  refine ⟨⟨fun hagreed => ?_, fun hguarded => ?_⟩, fun i => ⟨?_, ?_⟩⟩
  · rcases guarded_or_failed hempty hrun with hguarded | ⟨i, err, herr⟩
    · exact hguarded
    · obtain ⟨identity, hall⟩ := hagreed
      exact nomatch (hall i _ herr).1
  · have hphase : Phase parse newString s := Phase.missing hstart.1 fun i => Or.inl (hstart.2 i)
    exact agreed_of_phase (hguarded.along (fun _ _ _ _ hp hs => phase_step hp hs.2 hs.1) hphase)
  · have hcount := count_remaining hrun i
    rw [hstart.2 i] at hcount
    exact Nat.le_trans (Nat.le_add_right _ _) hcount
  · by_cases hreturned : ∃ result, t.call i = .returned result
    · exact Or.inl hreturned
    · exact Or.inr ⟨_, fun result hi => hreturned ⟨result, hi⟩, rfl⟩

/-! ## Two instances -/

/-- `uuid.Parse` on texts of 36 characters and on those of no valid length. -/
def parseUuid (s : String) : Except String Unit :=
  if s.length = 36 then
    if s.toList.zipIdx.all fun (c, i) =>
        if i ∈ [8, 13, 18, 23] then c == '-' else c.isDigit || c ∈ "abcdefABCDEF".toList
    then .ok () else .error "invalid UUID format"
  else .error ("invalid UUID length: " ++ toString s.length)

/-- The identities that two instances make up. -/
def twoStrings : Bool → Uuid parseUuid
  | false => ⟨"0b8f4a52-6d1e-4c3a-9f27-5e80d1c2b3a4", by decide, by decide⟩
  | true => ⟨"f47ac10b-58cc-4372-a567-0e02b2c3d479", by decide, by decide⟩

/-- No file yet. -/
def emptyRoot : Root Bool where
  file := none
  call := fun _ => .reading

/-- The second instance reads the file the first one has just created. -/
theorem early_read_fails :
    ∃ t, Run (calls parseUuid twoStrings) emptyRoot [false, false, true] t
      ∧ t.call true = .returned
        (.error (.invalid "storage identity is invalid: invalid UUID length: 0"))
      ∧ ¬ Agreed t := by
  refine ⟨_, .cons ⟨nofun, rfl⟩ (.cons ⟨nofun, rfl⟩ (.cons ⟨nofun, rfl⟩ (.nil _))), rfl, ?_⟩
  rintro ⟨identity, hall⟩
  exact nomatch (hall true _ rfl).1

/-- One of them creates the file, and the other reads it after it was written. -/
theorem identity_agreement_two :
    ∃ t, Run (calls parseUuid twoStrings) emptyRoot
        [false, true, false, true, false, true, false, false] t
      ∧ Agreed t := by
  -- the second instance finds that the file exists and reads it once it is written
  have hrun : ∃ t, Run ((calls parseUuid twoStrings).guarded fun s i => ¬ EarlyRead s i) emptyRoot
      [false, true, false, true, false, true, false, false] t :=
    ⟨_, .cons ⟨⟨nofun, rfl⟩, fun h => nomatch h.2⟩ (.cons ⟨⟨nofun, rfl⟩, fun h => nomatch h.2⟩
      (.cons ⟨⟨nofun, rfl⟩, fun h => nomatch h.2⟩
        (.cons ⟨⟨nofun, rfl⟩, fun h => h.1.elim nofun nofun⟩
      (.cons ⟨⟨nofun, rfl⟩, fun h => h.1.elim nofun nofun⟩
      (.cons ⟨⟨nofun, rfl⟩, fun h => absurd h.2 (by decide)⟩
      (.cons ⟨⟨nofun, rfl⟩, fun h => h.1.elim nofun nofun⟩
      (.cons ⟨⟨nofun, rfl⟩, fun h => h.1.elim nofun nofun⟩ (.nil _))))))))⟩
  obtain ⟨t, hguarded⟩ := hrun
  have hplain := hguarded.of_guarded
  have hempty : parseUuid "" = .error "invalid UUID length: 0" := rfl
  exact ⟨t, hplain, (identity_agreement hempty ⟨rfl, fun _ => rfl⟩ hplain).1.mpr hguarded⟩

end StorageIdentity
