import HeaderChain.Proofs.Sifting
import HeaderChain.Proofs.Syncing

/-!
# The ballots of an operation

An operation of a tracker is a list of steps over one draft: headers are added, and a checkpoint
comes or goes. A step that may change the best chain puts candidates to fork choice, and that is its
ballot. Whatever was done before, all candidates of all ballots are fit for fork choice.
-/

namespace HeaderChain

open Contest

/-! ## Steps -/

def Ballot.polled (ballot : Ballot) : Except ChainError (Option Ballot × Draft) := do
  return (some ballot, ← ballot.chosen)

def Ballot.Sifted (ballot : Ballot) : Prop := ∀ a ∈ ballot.candidates, a.Sifted ballot.draft

namespace Draft

/-- A part of what an operation does to its draft. -/
inductive Step where
  | header (h : Header)
  /-- Sets the checkpoint. -/
  | pin (p : Position)
  /-- Takes the checkpoint away, which was at this position. -/
  | unpin (p : Position)

namespace Step

def run (d : Draft) : Step → Except ChainError Draft
  | header h => d.addHeader h
  | pin p => (d.setCheckpoint p).applyCheckpoint p
  | unpin p => d.clearCheckpoint.applyCheckpoint p

/-- Carries out a step, and tells its ballot if it has one. -/
def poll (d : Draft) : Step → Except ChainError (Option Ballot × Draft)
  | header h =>
    if d.hasHeader h.hash then .ok (none, d)
    else match d.header? h.parent with
      | none => .ok (none, d.addWaiting h)
      | some parent =>
        if parent.isDisconnected then .ok (none, d.addWaiting h)
        else d.headerBallot h parent >>= Ballot.polled
  | pin p => (d.setCheckpoint p).checkpointBallot p >>= Ballot.polled
  | unpin p => d.clearCheckpoint.checkpointBallot p >>= Ballot.polled

/-- The steps that operations take where this is the checkpoint. -/
def Allowed (c : Position) : Step → Prop
  | header _ => True
  | pin p => c = .blank ∧ Height.leastCheckpoint ≤ p.height
  | unpin p => c = p ∧ Height.leastCheckpoint ≤ p.height

def leaves (c : Position) : Step → Position
  | header _ => c
  | pin p => p
  | unpin _ => .blank

def AllAllowed (c : Position) : List Step → Prop
  | [] => True
  | s :: steps => s.Allowed c ∧ AllAllowed (s.leaves c) steps

end Step

def runSteps (d : Draft) (steps : List Step) : Except ChainError Draft := steps.foldlM Step.run d

/-- Carries out steps, and tells the ballots of all of them. -/
def poll (d : Draft) : List Step → Except ChainError (List Ballot × Draft)
  | [] => .ok ([], d)
  | s :: steps => do
    let (ballot, e) ← s.poll d
    let (ballots, e) ← e.poll steps
    return (ballot.toList ++ ballots, e)

/-- A step is idle when it adds a header that is known or has to wait. -/
def Step.Idle (d : Draft) : Step → Prop
  | header h => d.Idle h
  | pin _ | unpin _ => False

/-- What a step does. One that is idle has no ballot; any other one has a ballot, and ends with what
fork choice makes of that. -/
structure Step.Taken (d : Draft) (s : Step) (ballot : Option Ballot) (e : Draft) : Prop where
  poll : s.poll d = .ok (ballot, e)
  run : s.run d = .ok e
  idle : ballot = none ↔ s.Idle d
  choice : ∀ x ∈ ballot, x.chosen = .ok e

/-- What steps do, each of which starts where the one before it ends, with their ballots. -/
inductive Taken : Draft → List Step → List Ballot → Draft → Prop
  | nil (d : Draft) : Taken d [] [] d
  | cons {d e f : Draft} {s : Step} {ballot : Option Ballot} {steps : List Step}
    {ballots : List Ballot} (first : s.Taken d ballot e) (rest : Taken e steps ballots f) :
    Taken d (s :: steps) (ballot.toList ++ ballots) f

variable {d e : Draft} {g : Hash} {b : List Link} {h p : Header} {a : Candidate} {c : Contest}
variable {n : ℕ} {change : CheckpointChange} {ballot : Ballot} {s : Step} {steps : List Step}
variable {ballots : List Ballot} {result : Except ChainError Ballot}

theorem chosen_eq_polled : result >>= Ballot.chosen = Prod.snd <$> (result >>= Ballot.polled) := by
  simp [Ballot.polled]

/-- Telling the ballots of a step changes nothing about it. -/
theorem Step.run_eq_poll (d : Draft) (s : Step) : s.run d = Prod.snd <$> s.poll d := by
  cases s with
  | header h =>
    rw [run, poll, addHeader]
    split_ifs with hknown
    · rfl
    · cases d.header? h.parent with
      | none => rfl
      | some parent =>
        dsimp only
        split_ifs with hplace
        · rfl
        · rw [addConnected_eq, chosen_eq_polled]
  | pin p => rw [run, poll, applyCheckpoint_eq, chosen_eq_polled]
  | unpin p => rw [run, poll, applyCheckpoint_eq, chosen_eq_polled]

theorem runSteps_eq_poll (d : Draft) (steps : List Step) :
    d.runSteps steps = Prod.snd <$> d.poll steps := by
  induction steps generalizing d with
  | nil => rfl
  | cons s steps ih =>
    rw [runSteps, List.foldlM_cons, Step.run_eq_poll, poll]
    simp [← ih, runSteps]

theorem Taken.poll (h : d.Taken steps ballots e) : d.poll steps = .ok (ballots, e) := by
  induction h with
  | nil => rfl
  | cons first _ ih =>
    simp [Draft.poll, first.poll, ih, bind, Except.bind, pure, Except.pure]

/-! ## One step -/

/-- The candidates of a new header are not empty, since each of them goes through that. -/
theorem Sound.chain_ne_nil (hd : d.Sound g b) (hx : d.header? h.hash = none)
    (hp : d.header? h.parent = some p) (hplace : p.isDisconnected = false)
    (hperform : (d.contest h).perform (join p h.hash) = (.ok (), c))
    (ha : a ∈ c.candidates.toList) : a.chain ≠ [] := by
  obtain ⟨s, hparent, hpplaced⟩ := hd.exact.route_of_connected hp hplace
  obtain ⟨e, z, base, up, hf, hjoin⟩ := hd.forked hx hparent
  rw [← hpplaced, hperform] at hjoin
  obtain ⟨c', -, hconnect, -, hattached, -⟩ := hf.attached (.refl _)
  cases hjoin.trans hconnect
  -- Each candidate is a copy of the one that was entered for the header, or extends it.
  obtain ⟨k, u, climb, -, -, rfl⟩ := hf.joining.exists_hangs hattached ha
  simp [ascend_append, ascend]

theorem Sound.sifted_headerBallot (hd : d.Sound g b) (hx : d.header? h.hash = none)
    (hp : d.header? h.parent = some p) (hplace : p.isDisconnected = false) :
    ∃ ballot, d.headerBallot h p = .ok ballot ∧ ballot.Sifted := by
  obtain ⟨c, z, s, hperform, hready, rfl, hz, hballot⟩ := hd.headerBallot hx hp hplace
  refine ⟨_, hballot, ?_⟩
  apply (hready.contested.restage (h := z.placed d.currentCheckpoint s) hz).sifted
  intro a ha hnil
  exact absurd hnil (hd.chain_ne_nil hx hp hplace hperform ha)

theorem Sound.sifted_checkpointBallot (hd : d.Sound g b) {p : Position} (hp : 1 ≤ n)
    (hheight : p.height = n) (hc : d.currentCheckpoint.Concerns n)
    (hc' : ({ d with checkpoint := change } : Draft).currentCheckpoint.Concerns n) :
    ∃ ballot, ({ d with checkpoint := change } : Draft).checkpointBallot p = .ok ballot ∧
      ballot.Sifted := by
  obtain ⟨x, s, y, t, parts, c, rfl, -, -, -, hmatch, hballot⟩ :=
    hd.checkpointBallot hp hheight hc hc'
  refine ⟨_, hballot, hmatch.contested.sifted ?_⟩
  intro a ha hnil
  rw [hmatch.candidates] at ha
  obtain ⟨part, -, rfl⟩ := List.mem_map.mp ha
  -- A tip below the checkpoint has nothing above the best chain, and its flag was never set.
  have hempty : part.2 = [] := by
    cases hup : part.2 with
    | nil => rfl
    | cons z up => simp [flagged, hup, ascend] at hnil
  simp [flagged, hempty]

theorem Step.taken_of_ballot (hidle : ¬ s.Idle d) (hpoll : s.poll d = result >>= Ballot.polled)
    (hballot : result = .ok ballot) (he : result >>= Ballot.chosen = .ok e) :
    s.Taken d (some ballot) e := by
  rw [hballot] at hpoll he
  have hchoice : ballot.chosen = .ok e := he
  have hpolled : s.poll d = .ok (some ballot, e) := by
    rw [hpoll]
    change ballot.polled = _
    rw [Ballot.polled, hchoice]
    rfl
  constructor
  case poll => exact hpolled
  case run =>
    rw [Step.run_eq_poll, hpolled]
    rfl
  case idle => simpa using hidle
  case choice => simpa using hchoice

theorem Step.taken_of_idle (hreadable : d.base.Readable) (hidle : d.Idle h)
    (he : d.addHeader h = .ok e) : (Step.header h).Taken d none e := by
  refine ⟨?_, he, by simpa [Step.Idle] using hidle, by simp⟩
  rw [addHeader] at he
  rw [poll]
  split_ifs at he ⊢ with hknown
  · rw [Except.ok.inj he]
  · rw [hasHeader_iff hreadable] at hknown
    have hwaits := hidle.resolve_left hknown
    cases hp : d.header? h.parent with
    | none =>
      rw [hp] at he
      rw [← Except.ok.inj he]
    | some p =>
      rw [hp] at he
      simp only [hwaits p hp, if_true] at he ⊢
      rw [← Except.ok.inj he]

theorem Step.poll_of_connected (hreadable : d.base.Readable) (hx : d.header? h.hash = none)
    (hp : d.header? h.parent = some p) (hplace : p.isDisconnected = false) :
    (Step.header h).poll d = d.headerBallot h p >>= Ballot.polled := by
  have hunknown : ¬ d.hasHeader h.hash = true := by
    rw [hasHeader_iff hreadable, hx]
    simp
  rw [poll, if_neg hunknown, hp]
  simp [hplace]

theorem Sound.take_checkpoint (hd : d.Sound g b) (change : CheckpointChange) {p : Position}
    (hlow : Height.leastCheckpoint ≤ p.height)
    (hc : d.currentCheckpoint.Concerns p.height.toNat)
    (hc' : ({ d with checkpoint := change } : Draft).currentCheckpoint.Concerns p.height.toNat)
    (hidle : ¬ s.Idle d)
    (hpoll : s.poll d = ({ d with checkpoint := change } : Draft).checkpointBallot p >>=
      Ballot.polled) :
    ∃ ballot e b', s.Taken d (some ballot) e ∧ ballot.Sifted ∧ e.Sound g b' ∧
      e.checkpoint = change := by
  obtain ⟨hpos, hheight, -⟩ := Tracker.concerns_of_low hlow
  obtain ⟨b', e, he, hrechosen⟩ := hd.applyCheckpoint hpos hheight hc hc'
  obtain ⟨ballot, hballot, hsifted⟩ := hd.sifted_checkpointBallot hpos hheight hc hc'
  rw [applyCheckpoint_eq] at he
  exact ⟨ballot, e, b', Step.taken_of_ballot hidle hpoll hballot he, hsifted, hrechosen.sound,
    hrechosen.checkpoint⟩

/-- A step that is allowed succeeds and leaves the draft sound. All candidates of its ballot are fit
for fork choice. -/
theorem Sound.take (hd : d.Sound g b) (hs : s.Allowed d.currentCheckpoint) :
    ∃ ballot e b', s.Taken d ballot e ∧ (∀ x ∈ ballot, x.Sifted) ∧ e.Sound g b' ∧
      e.currentCheckpoint = s.leaves d.currentCheckpoint := by
  cases s with
  | header h =>
    by_cases hidle : d.Idle h
    · obtain ⟨e, he, -, hadded⟩ := hd.addHeader_of_idle hidle
      exact ⟨none, e, b, Step.taken_of_idle hd.readable hidle he, by simp, hadded.sound,
        currentCheckpoint_congr hadded.checkpoint hadded.base⟩
    · obtain ⟨p, hx, hp, hplace, -⟩ := hd.addHeader_of_not_idle hidle
      obtain ⟨c, b', e, -, -, -, he, hadded⟩ := hd.addConnected hx hp hplace
      obtain ⟨ballot, hballot, hsifted⟩ := hd.sifted_headerBallot hx hp hplace
      rw [addConnected_eq] at he
      have htaken : (Step.header h).Taken d (some ballot) e :=
        Step.taken_of_ballot hidle (Step.poll_of_connected hd.readable hx hp hplace) hballot he
      exact ⟨some ballot, e, b', htaken, by simpa using hsifted, hadded.sound,
        currentCheckpoint_congr hadded.checkpoint hadded.base⟩
  | pin p =>
    obtain ⟨hblank, hlow⟩ := hs
    obtain ⟨-, -, hconcerns⟩ := Tracker.concerns_of_low hlow
    obtain ⟨ballot, e, b', htaken, hsifted, hsound, hset⟩ :=
      hd.take_checkpoint (s := .pin p) (.set p) hlow (hblank ▸ .blank _) hconcerns not_false rfl
    exact ⟨some ballot, e, b', htaken, by simpa using hsifted, hsound,
      Tracker.currentCheckpoint_of_set hset⟩
  | unpin p =>
    obtain ⟨hsame, hlow⟩ := hs
    obtain ⟨-, -, hconcerns⟩ := Tracker.concerns_of_low hlow
    obtain ⟨ballot, e, b', htaken, hsifted, hsound, hclear⟩ :=
      hd.take_checkpoint (s := .unpin p) .clear hlow (hsame ▸ hconcerns) (.blank _) not_false rfl
    exact ⟨some ballot, e, b', htaken, by simpa using hsifted, hsound,
      Tracker.currentCheckpoint_of_clear hclear⟩

/-! ## Many steps -/

theorem Sound.takeAll (hd : d.Sound g b) (hs : Step.AllAllowed d.currentCheckpoint steps) :
    ∃ ballots e, d.Taken steps ballots e ∧ ∀ ballot ∈ ballots, ballot.Sifted := by
  induction steps generalizing d b with
  | nil => exact ⟨[], d, .nil d, by simp⟩
  | cons s steps ih =>
    obtain ⟨hfirst, hrest⟩ := hs
    obtain ⟨ballot, e, b', htaken, hsifted, hsound, hcheckpoint⟩ := hd.take hfirst
    obtain ⟨ballots, e', htakenAll, hall⟩ := ih hsound (hcheckpoint ▸ hrest)
    refine ⟨ballot.toList ++ ballots, e', .cons htaken htakenAll, ?_⟩
    simpa [or_imp, forall_and] using ⟨hsifted, hall⟩

theorem Step.allAllowed_headers (c : Position) (hs : List Header) :
    AllAllowed c (hs.map .header) := by
  induction hs with
  | nil => trivial
  | cons h hs ih => exact ⟨trivial, ih⟩

end Draft

/-! ## Operations -/

def Tracker.carryOut (t : Tracker) (steps : List Draft.Step) : Except ChainError Tracker := do
  if steps.isEmpty then return t else t.commit (← t.ledger.draft.runSteps steps)

namespace Operation

def start (t : Tracker) : Operation → Tracker
  | init default _ => { t with default }
  | reopen network =>
    match Ledger.ofStore t.ledger.store network with
    | .error _ => t
    | .ok l => .ofLedger l
  | addHeader _ | addHeaders _ | sync _ _ | addCheckpoint _ _ _ | deleteCheckpoint => t

/-- What an upgrade does: the checkpoint goes if there is one, and the default one is set if it is
not too low. -/
def upgradeSteps (existing default : Position) : List Draft.Step :=
  if existing.height > default.height ∨ existing = default then []
  else (if existing.isBlank then [] else [.unpin existing]) ++
    if Height.leastCheckpoint ≤ default.height then [.pin default] else []

def steps (t : Tracker) : Operation → List Draft.Step
  | addHeader h => [.header h]
  | addHeaders hs => hs.map .header
  | sync prior records =>
    ((SyncRecord.headers? prior (t.ledger.store.heightAfter? prior) records).getD []).map .header
  | addCheckpoint height hash _ =>
    if height < Height.leastCheckpoint ∨ !t.checkpoint.isBlank then [] else [.pin ⟨height, hash⟩]
  | deleteCheckpoint => if t.checkpoint.isBlank then [] else [.unpin t.checkpoint]
  | init default _ => upgradeSteps t.checkpoint default.position
  | reopen _ => []

variable {t : Tracker}

theorem runSteps_headers (d : Draft) (hs : List Header) :
    d.runSteps (hs.map .header) = d.addHeaders hs := by
  rw [Draft.runSteps, List.foldlM_map]
  rfl

theorem carryOut_headers (t : Tracker) (hs : List Header) :
    t.carryOut (hs.map .header) = t.addHeaders hs := by
  rw [Tracker.carryOut, Tracker.addHeaders, runSteps_headers, List.isEmpty_map]
  rfl

theorem carryOut_singleton (t : Tracker) (s : Draft.Step) :
    t.carryOut [s] = s.run t.ledger.draft >>= t.commit := by
  simp [Tracker.carryOut, Draft.runSteps]

theorem upgrade_eq_carryOut (t : Tracker) :
    t.upgrade = t.carryOut (upgradeSteps t.checkpoint t.default.position) := by
  unfold Tracker.upgrade upgradeSteps
  by_cases hkeep : t.checkpoint.height > t.default.position.height ∨
      t.checkpoint = t.default.position
  · rw [if_pos hkeep, if_pos hkeep]
    rfl
  rw [if_neg hkeep, if_neg hkeep]
  by_cases hlow : Height.leastCheckpoint ≤ t.default.position.height <;>
    cases t.checkpoint.isBlank <;>
    simp [hlow, Tracker.carryOut, Draft.runSteps, Draft.Step.run]

/-- The steps of an operation, committed together, are all that it does. -/
theorem run_eq_carryOut (t : Tracker) (o : Operation) :
    o.run t = t.after ((o.start t).carryOut (o.steps t)) := by
  cases o with
  | addHeader h => exact congrArg t.after (carryOut_headers t [h]).symm
  | addHeaders hs => exact congrArg t.after (carryOut_headers t hs).symm
  | sync prior records =>
    rw [run, steps, start, carryOut_headers, Tracker.sync_eq]
    cases SyncRecord.headers? prior (t.ledger.store.heightAfter? prior) records with
    | none => rfl
    | some hs =>
      dsimp only [Option.getD]
      cases t.addHeaders hs <;> rfl
  | addCheckpoint height hash fits =>
    rw [run, steps, start]
    rcases lt_or_ge height Height.leastCheckpoint with hlow | hlow
    · rw [t.addCheckpoint_of_low hash hlow, if_pos (.inl hlow)]
      rfl
    · cases hblank : t.checkpoint.isBlank with
      | false =>
        rw [Tracker.addCheckpoint_of_set hash hlow hblank, if_pos (.inr rfl)]
        rfl
      | true =>
        rw [if_neg (by simpa using hlow), carryOut_singleton, Tracker.addCheckpoint,
          if_neg (not_lt.mpr hlow), hblank]
        rfl
  | deleteCheckpoint =>
    rw [run, steps, start]
    cases hblank : t.checkpoint.isBlank with
    | true =>
      rw [Tracker.deleteCheckpoint_of_blank hblank]
      rfl
    | false =>
      rw [if_neg (by simp), carryOut_singleton, Tracker.deleteCheckpoint, hblank]
      rfl
  | init default fits => exact congrArg t.after (upgrade_eq_carryOut { t with default })
  | reopen network => rfl

end Operation

theorem Tracker.Founded.steps_allowed {t : Tracker} {n : Network} {links b : List Link}
    (ht : t.Founded n links b) (o : Operation) :
    Draft.Step.AllAllowed t.checkpoint (o.steps t) := by
  cases o with
  | addHeader h => exact ⟨trivial, trivial⟩
  | addHeaders hs => exact Draft.Step.allAllowed_headers _ _
  | sync prior records => exact Draft.Step.allAllowed_headers _ _
  | addCheckpoint height hash fits =>
    rw [Operation.steps]
    split_ifs with hrefused
    · trivial
    · rw [not_or, not_lt] at hrefused
      have hblank : t.checkpoint = .blank := Position.isBlank_iff.mp (by simpa using hrefused.2)
      exact ⟨⟨hblank, hrefused.1⟩, trivial⟩
  | deleteCheckpoint =>
    rw [Operation.steps]
    split_ifs with hblank
    · trivial
    · exact ⟨⟨rfl, ht.low_of_not_blank (by simpa using hblank)⟩, trivial⟩
  | init default fits =>
    rw [Operation.steps, Operation.upgradeSteps]
    have hleast := ht.low_of_not_blank
    split_ifs with hkeep hblank hlow hlow
    · trivial
    · exact ⟨⟨Position.isBlank_iff.mp hblank, hlow⟩, trivial⟩
    · trivial
    · exact ⟨⟨rfl, hleast (by simpa using hblank)⟩, ⟨rfl, hlow⟩, trivial⟩
    · exact ⟨⟨rfl, hleast (by simpa using hblank)⟩, trivial⟩
  | reopen network => trivial

/-- After every history, every operation does what its steps do to one draft. A step that is not
idle ends with what fork choice makes of its ballot. Whichever candidates the steps put to fork
choice form paths from the best chain upward, each with the flag of its tip. What is eligible of one
are all the headers that the checkpoint does not rule out, and these come first in it. -/
theorem History.candidates_sifted (h : History) (n : Network) (o : Operation) :
    o.run (h.last n) = (h.last n).after ((o.start (h.last n)).carryOut (o.steps (h.last n))) ∧
    ∃ ballots d, (h.last n).ledger.draft.poll (o.steps (h.last n)) = .ok (ballots, d) ∧
      (h.last n).ledger.draft.runSteps (o.steps (h.last n)) = .ok d ∧
      (h.last n).ledger.draft.Taken (o.steps (h.last n)) ballots d ∧
      ∀ ballot ∈ ballots, ∀ a ∈ ballot.candidates, a.Sifted ballot.draft := by
  obtain ⟨b, ht⟩ := h.founded n
  refine ⟨o.run_eq_carryOut _, ?_⟩
  obtain ⟨ballots, d, htaken, hsifted⟩ := ht.draft.sound.takeAll (ht.steps_allowed o)
  refine ⟨ballots, d, htaken.poll, ?_, htaken, hsifted⟩
  rw [Draft.runSteps_eq_poll, htaken.poll]
  rfl

end HeaderChain
