import Mathlib.Logic.Relation
import Relocation.Block.Store
import Relocation.Proofs.Scalar

/-!
# What blocks remember

Over any run of steps the answers that a block gives to requests for its URL are failures, then one
URL for good, and its materializer is called with its body for each failure and once for the URL
(`BlockStore.Memoizes`).  Only such requests call it, and what a call gives is what the materializer
answers (`Depot.Faithful`).  A step that fails leaves every block as it was, bodies never change,
and clones have them too (`BlockStore.Reliable`, `BlockStore.reliable_run`).
-/

namespace Relocation

/-! ## calls of materializers -/

namespace Materializer

def isTempFile : Materializer → Bool
  | .tempFile => true
  | _ => false

def isCustom : Materializer → Bool
  | .custom _ => true
  | _ => false

end Materializer

/-- a call gave what its materializer answers to its body behind the calls before it: the URL that
carries the body, the URL of a file that holds it, or what a custom one makes of it -/
def MaterializerCall.Answered (d : Depot) (before : List MaterializerCall)
    (call : MaterializerCall) : Prop :=
  match call.materializer with
  | .dataUrl => call.outcome = Depot.dataUrl call.body
  | .tempFile =>
    match d.refusals (before.countP (·.materializer.isTempFile)), call.body.utf8? with
    | some fault, _ => call.outcome = .error (.file fault)
    | none, none => call.outcome = .error .notEncodable
    | none, some bytes =>
      ∃ name, (name, bytes) ∈ d.files ∧ call.outcome = .ok (Depot.directory ++ name)
  | .custom answer =>
    call.outcome = answer (before.countP (·.block = call.block))
      (before.countP (·.materializer.isCustom)) call.body

namespace Depot

/-- the log has every call, with what its materializer answered -/
structure Faithful (d : Depot) : Prop where
  custom : d.calls = d.log.countP (·.materializer.isCustom)
  files : d.filesAsked = d.log.countP (·.materializer.isTempFile)
  answered : ∀ before call behind, d.log = before ++ call :: behind → call.Answered d before

variable {d d' : Depot} {k j : Nat} {m : Materializer} {body : Text}

theorem log_materialize :
    (d.materialize k m body).2.log = d.log ++ [⟨k, m, body, (d.materialize k m body).1⟩] := by
  cases m <;> rfl

theorem callsFor_materialize : (d.materialize k m body).2.callsFor j =
    d.callsFor j ++ if k = j then [⟨k, m, body, (d.materialize k m body).1⟩] else [] := by
  rw [callsFor, callsFor, log_materialize, List.filter_append]
  congr 1
  by_cases hk : k = j <;> simp [hk]

theorem refusals_materialize : (d.materialize k m body).2.refusals = d.refusals := by
  cases m with
  | tempFile =>
    simp only [materialize, answer, store]
    split
    · rfl
    · split <;> rfl
  | _ => rfl

theorem calls_materialize : (d.materialize k m body).2.calls = d.calls + if m.isCustom then 1
    else 0 := by
  cases m with
  | tempFile =>
    simp only [materialize, answer, store]
    split
    · rfl
    · split <;> rfl
  | _ => rfl

theorem filesAsked_materialize :
    (d.materialize k m body).2.filesAsked = d.filesAsked + if m.isTempFile then 1 else 0 := by
  cases m with
  | tempFile =>
    simp only [materialize, answer, store]
    split
    · rfl
    · split <;> rfl
  | _ => rfl

theorem mem_files_materialize {file : Text × List UInt8} (h : file ∈ d.files) :
    file ∈ (d.materialize k m body).2.files := by
  cases m with
  | tempFile =>
    simp only [materialize, answer, store]
    split
    · exact h
    · split <;> exact List.mem_cons_of_mem _ h
  | _ => exact h

/-- the call that is made is answered by its materializer -/
theorem Faithful.answered_materialize (h : d.Faithful) :
    MaterializerCall.Answered (d.materialize k m body).2 d.log
      ⟨k, m, body, (d.materialize k m body).1⟩ := by
  cases m with
  | dataUrl => rfl
  | custom answer =>
    simp only [MaterializerCall.Answered, ← h.custom, List.countP_eq_length_filter]
    rfl
  | tempFile =>
    simp only [MaterializerCall.Answered, refusals_materialize, ← h.files]
    cases hrefusal : d.refusals d.filesAsked with
    | some fault => simp [materialize, answer, store, hrefusal]
    | none =>
      cases hbytes : body.utf8? with
      | none => simp [materialize, answer, store, hrefusal, hbytes]
      | some bytes =>
        refine ⟨fileNameStart ++ Text.ofNat d.files.length ++ fileNameEnd, ?_, ?_⟩ <;>
          simp [materialize, answer, store, hrefusal, hbytes]

end Depot

/-- an answer stands when more files are made -/
theorem MaterializerCall.Answered.mono {d d' : Depot} {before : List MaterializerCall}
    {call : MaterializerCall} (h : call.Answered d before) (hrefusals : d'.refusals = d.refusals)
    (hfiles : ∀ file ∈ d.files, file ∈ d'.files) : call.Answered d' before := by
  unfold Answered at h ⊢
  split at h
  · exact h
  · rw [hrefusals]
    split at h
    · exact h
    · exact h
    · obtain ⟨name, hname, houtcome⟩ := h
      exact ⟨name, hfiles _ hname, houtcome⟩
  · exact h

namespace Depot

variable {d : Depot} {k : Nat} {m : Materializer} {body : Text}

theorem Faithful.materialize (h : d.Faithful) : (d.materialize k m body).2.Faithful where
  custom := by
    rw [calls_materialize, log_materialize, List.countP_append, ← h.custom, List.countP_singleton]
  files := by
    rw [filesAsked_materialize, log_materialize, List.countP_append, ← h.files,
      List.countP_singleton]
  answered := by
    intro before call behind hlog
    rw [log_materialize] at hlog
    rcases List.eq_nil_or_concat behind with rfl | ⟨init, last, rfl⟩
    · obtain ⟨hbefore, hcall⟩ := List.append_inj' hlog rfl
      obtain rfl := List.singleton_inj.1 hcall
      exact hbefore ▸ h.answered_materialize
    · rw [List.concat_eq_append, ← List.cons_append, ← List.append_assoc] at hlog
      obtain ⟨hinit, -⟩ := List.append_inj' hlog rfl
      exact (h.answered before call init hinit).mono refusals_materialize fun file =>
        mem_files_materialize

theorem faithful_empty (refusals : Nat → Option FileFault) : Faithful { refusals := refusals } where
  custom := rfl
  files := rfl
  answered := by
    intro before call behind h
    cases before <;> cases h

end Depot

namespace Block

variable {b : Block} {k : Nat} {d : Depot}

theorem url_of_some {u : Text} (h : b.url? = some u) : b.url k d = (.ok u, b, d) := by
  unfold url
  rw [h]

/-- the first request calls the materializer; a URL is kept, a failure is not -/
theorem url_of_none (h : b.url? = none) :
    b.url k d = ((d.materialize k b.materializer b.body).1,
      { b with url? := (d.materialize k b.materializer b.body).1.toOption },
      (d.materialize k b.materializer b.body).2) := by
  unfold url
  rw [h]
  rcases hcall : d.materialize k b.materializer b.body with ⟨_ | u, d'⟩
  · simp only [Except.toOption]
    rw [← h]
  · rfl

end Block

namespace BlockStore

/-- the store behind a sequence of steps -/
def after (s : BlockStore) (steps : List Step) : BlockStore :=
  steps.foldl (fun s x => (s.step x).2) s

/-- does the step ask the block with a number for its URL? -/
def asks (s : BlockStore) (k : Nat) : Step → Bool
  | .url name => s.number? name = some k
  | _ => false

/-- what the requests for the URL of a block were answered in a run, in order -/
def urlAnswers (s : BlockStore) (k : Nat) : List Step → List Answer
  | [] => []
  | x :: r => (if s.asks k x then [(s.step x).1] else []) ++ urlAnswers (s.step x).2 k r

def bodyAt (s : BlockStore) (k : Nat) : Option Text := s.blocks[k]?.map (·.body)

/-- the answers to requests for a block's URL, the calls of its materializer and the URL it keeps go
together: for each failure its own materializer was called with its body, one such call made the
URL, and from then on there is no call any more -/
def Memoizes (k : Nat) (b : Block) (answers : List Answer) (calls : List MaterializerCall) : Prop :=
  ∃ (failures : List Failure) (u : Text) (n : Nat),
    answers = failures.map .failed ++ List.replicate n (.text u) ∧
    calls = failures.map (fun e => ⟨k, b.materializer, b.body, .error e⟩) ++
      List.replicate (min n 1) ⟨k, b.materializer, b.body, .ok u⟩ ∧
    b.url? = if n = 0 then none else some u

/-- the block with a number memoizes its URL over all the answers there were; before it is made
there are none -/
def Remembers (s : BlockStore) (k : Nat) (answers : List Answer) : Prop :=
  match s.blocks[k]? with
  | some b => Memoizes k b answers (s.depot.callsFor k)
  | none => answers = [] ∧ s.depot.callsFor k = []

/-- the name and the block that a step makes of what it brings along -/
def Step.made? : Step → Option (Text × Block)
  | .create name v m => v.text?.map fun t => (name, { body := t, materializer := m })
  | .recover name v => (Block.recover? v).map fun b => (name, b)
  | _ => none

/-- the body that a step brings along -/
def Step.body? (x : Step) : Option Text := x.made?.map (·.2.body)

/-- a new block is the one that the step brings, or is recovered from the clone of another block -/
def Brings (s : BlockStore) (x : Step) (name : Text) (b : Block) : Prop :=
  x.made? = some (name, b) ∨
    ∃ (k : Nat) (b' : Block), s.blocks[k]? = some b' ∧ Block.recover? b'.clone.throughJson = some b

/-- names stand for blocks that were made -/
def Numbered (s : BlockStore) : Prop := ∀ name k, s.number? name = some k → k < s.blocks.length

variable {s s₀ : BlockStore} {x : Step} {name target : Text} {k j : Nat} {b : Block}
  {steps pre post : List Step}

@[simp] theorem after_nil : s.after [] = s := rfl

@[simp] theorem after_cons : s.after (x :: steps) = (s.step x).2.after steps := rfl

@[simp] theorem after_append : s.after (pre ++ post) = (s.after pre).after post := List.foldl_append

theorem number?_put : (s.put target b).number? name =
    if target = name then some s.blocks.length else s.number? name := by
  simp only [number?, put, List.find?_cons]
  split <;> simp_all

theorem blocks_put : (s.put target b).blocks[k]? =
    if k = s.blocks.length then some b else s.blocks[k]? := by
  simp only [put, List.getElem?_append, List.getElem?_singleton]
  grind

/-! ## one step -/

theorem Numbered.exists_block (h : s.Numbered) (hk : s.number? name = some k) :
    ∃ b, s.blocks[k]? = some b :=
  ⟨_, List.getElem?_eq_getElem (h name k hk)⟩

theorem withBlock_of_some {f : Nat → Block → Answer × BlockStore} (hk : s.number? name = some k)
    (hb : s.blocks[k]? = some b) : s.withBlock name f = f k b := by
  unfold withBlock
  rw [hk]
  simp only [hb]

theorem withBlock_cases (s : BlockStore) (name : Text) (f : Nat → Block → Answer × BlockStore) :
    s.withBlock name f = (.unknown, s) ∨
      ∃ k b, s.number? name = some k ∧ s.blocks[k]? = some b ∧ s.withBlock name f = f k b := by
  cases hk : s.number? name with
  | none => exact .inl (by simp [withBlock, hk])
  | some k =>
    cases hb : s.blocks[k]? with
    | none => exact .inl (by simp [withBlock, hk, hb])
    | some b => exact .inr ⟨k, b, rfl, hb, withBlock_of_some hk hb⟩

theorem fixup_cases (s : BlockStore) (name : Text) (c : Candidate) :
    s.fixup name c = (.same, s) ∨ ∃ b, c.fixup? = some b ∧
    s.fixup name c = (.recovered b, s.put name b) := by
  unfold fixup
  cases hc : c.fixup? with
  | none => exact .inl rfl
  | some b => exact .inr ⟨b, rfl, rfl⟩

theorem url_of_fixup? {c : Candidate} (h : c.fixup? = some b) : b.url? = none := by
  cases c with
  | block k => cases h
  | data v =>
    simp only [Candidate.fixup?, Block.recover?] at h
    split at h
    · split at h
      · cases h
        rfl
      · cases h
    · cases h

theorem tell_cases (s : BlockStore) (name : Text) (f : Block → Answer) :
    s.tell name f = (.unknown, s) ∨ ∃ b, s.tell name f = (f b, s) := by
  rcases withBlock_cases s name fun _ b => (f b, s) with h | ⟨k, b, -, -, h⟩
  · exact .inl h
  · exact .inr ⟨b, h⟩

/-- a step leaves the store alone, makes a new block, or asks a block for its URL -/
theorem step_cases (s : BlockStore) (x : Step) :
    ((s.step x).2 = s ∧ (∀ name, x = .url name → (s.step x).1 = .unknown) ∧
      ∀ e, (s.step x).1 = .failed e → ∃ name v m, x = .create name v m) ∨
    (∃ name b, (s.step x).2 = s.put name b ∧ b.url? = none ∧ s.Brings x name b ∧
      (∀ name, x ≠ .url name) ∧
      (∀ e, (s.step x).1 ≠ .failed e)) ∨
    (∃ name k b, x = .url name ∧ s.number? name = some k ∧ s.blocks[k]? = some b ∧
      s.step x = s.ask k b) := by
  have told : ∀ (name : Text) (f : Block → Answer), (∀ b e, f b ≠ .failed e) →
      (s.tell name f).2 = s ∧ ∀ e, (s.tell name f).1 ≠ .failed e := by
    intro name f hf
    rcases tell_cases s name f with h | ⟨b, h⟩ <;> simp [h, hf]
  cases x with
  | create name v m =>
    cases v with
    | text t =>
      exact .inr (.inl ⟨name, { body := t, materializer := m }, rfl, rfl,
        .inl rfl, by simp, by simp [step, Block.ofValue]⟩)
    | _ => exact .inl ⟨rfl, by simp, fun _ _ => ⟨_, _, _, rfl⟩⟩
  | url name =>
    rcases withBlock_cases s name s.ask with h | ⟨k, b, hk, hb, h⟩
    · exact .inl (by simp [step, h])
    · exact .inr (.inr ⟨name, k, b, rfl, hk, hb, h⟩)
  | body name =>
    obtain ⟨hs, hne⟩ := told name (fun b => .text b.body) (by simp)
    exact .inl ⟨hs, by simp, fun e h => absurd h (hne e)⟩
  | kind name =>
    obtain ⟨hs, hne⟩ := told name (fun _ => .text Block.kind) (by simp)
    exact .inl ⟨hs, by simp, fun e h => absurd h (hne e)⟩
  | isMaterialized name =>
    obtain ⟨hs, hne⟩ := told name (fun b => .flag b.isMaterialized) (by simp)
    exact .inl ⟨hs, by simp, fun e h => absurd h (hne e)⟩
  | display name =>
    obtain ⟨hs, hne⟩ := told name (fun b => .text b.display) (by simp)
    exact .inl ⟨hs, by simp, fun e h => absurd h (hne e)⟩
  | fixup name =>
    rcases withBlock_cases s name fun k _ => s.fixup name (.block k) with h | ⟨k, b, -, -, h⟩
    · exact .inl (by simp [step, h])
    · have hx : s.step (.fixup name) = (.same, s) := h
      exact .inl (by simp [hx])
  | clone name target =>
    rcases withBlock_cases s name fun _ b =>
      (.cloned b.clone.throughJson, (s.fixup target (.data b.clone.throughJson)).2) with h |
        ⟨k, b, -, hb, h⟩
    · exact .inl (by simp [step, h])
    · rcases fixup_cases s target (.data b.clone.throughJson) with hf | ⟨b', hb', hf⟩
      · exact .inl (by simp [step, h, hf])
      · exact .inr (.inl ⟨target, b', by rw [step, h, hf], url_of_fixup? hb', .inr ⟨k, b, hb, hb'⟩,
          by simp, by simp [step, h]⟩)
  | recover name v =>
    rcases fixup_cases s name (.data v) with hf | ⟨b', hb', hf⟩
    · exact .inl (by simp [step, hf])
    · refine .inr (.inl ⟨name,
        b', by rw [step, hf], url_of_fixup? hb', .inl ?_, by simp, by simp [step, hf]⟩)
      rw [Step.made?, show Block.recover? v = some b' from hb']
      rfl

theorem set_self (hb : s.blocks[k]? = some b) : s.blocks.set k b = s.blocks := by
  refine List.ext_getElem? fun j => ?_
  rw [List.getElem?_set]
  grind

theorem ask_of_some {u : Text} (hb : s.blocks[k]? = some b) (hu : b.url? = some u) :
    s.ask k b = (.text u, s) := by
  rw [ask, Block.url_of_some hu]
  simp only
  rw [set_self hb]

theorem ask_of_none (hu : b.url? = none) :
    s.ask k b =
      (match (s.depot.materialize k b.materializer b.body).1 with
        | .ok u => .text u
        | .error e => .failed e,
        { s with
          depot := (s.depot.materialize k b.materializer b.body).2
          blocks := s.blocks.set k
            { b with url? := (s.depot.materialize k b.materializer b.body).1.toOption } }) := by
  unfold ask
  split
  rename_i outcome b' d hurl
  rw [Block.url_of_none hu] at hurl
  cases hurl
  rfl

/-! ## what one step keeps -/

theorem length_ask : (s.ask k b).2.blocks.length = s.blocks.length := by simp [ask]

theorem Numbered.step (h : s.Numbered) (x : Step) : (s.step x).2.Numbered := by
  rcases step_cases s x with ⟨hs, -⟩ | ⟨name, b, hs, -⟩ | ⟨name, k, b, -, -, -, hs⟩
  · rwa [hs]
  · rw [hs]
    intro name' j hj
    rw [number?_put] at hj
    have hlen : (s.put name b).blocks.length = s.blocks.length + 1 := by simp [put]
    split at hj
    · cases hj
      omega
    · have := h name' j hj
      omega
  · rw [hs]
    intro name' j hj
    have := h name' j hj
    simpa [ask] using this

theorem bodyAt_put : (s.put target b).bodyAt k =
    if k = s.blocks.length then some b.body else s.bodyAt k := by
  rw [bodyAt, blocks_put]
  split <;> rfl

/-- a step changes nothing of a block but the URL it keeps -/
theorem block_step (hb : s.blocks[k]? = some b) (x : Step) :
    ∃ u, (s.step x).2.blocks[k]? = some { b with url? := u } := by
  have hlt : k < s.blocks.length := (List.getElem?_eq_some_iff.1 hb).1
  rcases step_cases s x with ⟨hs, -⟩ | ⟨name, b', hs, -⟩ | ⟨name, j, b', -, -, hb', hs⟩
  · exact ⟨b.url?, by rw [hs, hb]⟩
  · exact ⟨b.url?, by rw [hs, blocks_put, if_neg (by omega), hb]⟩
  · rw [hs]
    cases hu : b'.url? with
    | some u => exact ⟨b.url?, by rw [ask_of_some hb' hu, hb]⟩
    | none =>
      rw [ask_of_none hu]
      by_cases hjk : j = k
      · subst hjk
        obtain rfl := Option.some.inj (hb.symm.trans hb')
        exact ⟨_, List.getElem?_set_self hlt⟩
      · exact ⟨b.url?, by rw [List.getElem?_set_ne hjk, hb]⟩

/-- a block that is asked for its URL goes on as it should -/
theorem Memoizes.ask {answers : List Answer} (hb : s.blocks[k]? = some b)
    (h : Memoizes k b answers (s.depot.callsFor k)) :
    (s.ask k b).2.Remembers k (answers ++ [(s.ask k b).1]) := by
  obtain ⟨failures, u, n, rfl, hcalls, hurl⟩ := h
  have hlt : k < s.blocks.length := (List.getElem?_eq_some_iff.1 hb).1
  rcases Nat.eq_zero_or_pos n with rfl | hn
  · rw [ask_of_none hurl]
    simp only [Remembers, List.getElem?_set_self hlt, Depot.callsFor_materialize, hcalls]
    cases hcall : (s.depot.materialize k b.materializer b.body).1 with
    | ok v => exact ⟨failures, v, 1, by simp, by simp, rfl⟩
    | error e => exact ⟨failures ++ [e], u, 0, by simp, by simp, rfl⟩
  · have hkept : b.url? = some u := by rw [hurl, if_neg (by omega)]
    rw [ask_of_some hb hkept]
    simp only [Remembers, hb, hcalls]
    refine ⟨failures, u, n + 1, ?_, ?_, ?_⟩
    · rw [List.append_assoc, ← List.replicate_succ']
    · rw [show min (n + 1) 1 = min n 1 by omega]
    · rw [hkept, if_neg (by omega)]

/-- a request to one block leaves no trace in another -/
theorem ask_of_ne (hb : s.blocks[j]? = some b) (hjk : j ≠ k) :
    (s.ask j b).2.depot.callsFor k = s.depot.callsFor k ∧
    (s.ask j b).2.blocks[k]? = s.blocks[k]? := by
  cases hu : b.url? with
  | some v => simp [ask_of_some hb hu]
  | none =>
    rw [ask_of_none hu]
    refine ⟨?_, List.getElem?_set_ne hjk⟩
    simp only [Depot.callsFor_materialize, if_neg hjk, List.append_nil]

/-- a step that does not ask a block leaves no trace in it, though the block may be new -/
theorem Remembers.of_not_asks {answers : List Answer} (h : s.Remembers k answers)
    (hasks : s.asks k x = false) : (s.step x).2.Remembers k answers := by
  rcases step_cases s x with ⟨hx, -⟩ | ⟨name, b, hx, hurl, -⟩ | ⟨name, j, b, rfl, hj, hb, hx⟩
  · rwa [hx]
  · rw [hx, Remembers, blocks_put]
    by_cases hk : k = s.blocks.length
    · rw [Remembers, List.getElem?_eq_none (Nat.le_of_eq hk.symm)] at h
      rw [if_pos hk]
      exact ⟨[], [], 0, h.1, h.2, hurl⟩
    · rw [if_neg hk]
      exact h
  · have hjk : j ≠ k := by simpa [asks, hj] using hasks
    obtain ⟨hcalls, hblock⟩ := ask_of_ne hb hjk
    rw [hx, Remembers, hcalls, hblock]
    exact h

/-- the answer of a step to a request of a block joins those that the block remembers -/
theorem Remembers.step {answers : List Answer} (h : s.Remembers k answers) (hnumbered : s.Numbered)
    (x : Step) :
    (s.step x).2.Remembers k (answers ++ if s.asks k x then [(s.step x).1] else []) := by
  cases hasks : s.asks k x with
  | false =>
    rw [if_neg Bool.false_ne_true, List.append_nil]
    exact h.of_not_asks hasks
  | true =>
    rw [if_pos rfl]
    cases x with
    | url name =>
      have hk : s.number? name = some k := of_decide_eq_true hasks
      obtain ⟨b, hb⟩ := hnumbered.exists_block hk
      rw [Remembers, hb] at h
      rw [BlockStore.step, withBlock_of_some hk hb]
      exact h.ask hb
    | _ => cases hasks

theorem faithful_step (h : s.depot.Faithful) (x : Step) : (s.step x).2.depot.Faithful := by
  rcases step_cases s x with ⟨hs, -⟩ | ⟨name, b, hs, -⟩ | ⟨name, k, b, -, -, hb, hs⟩
  · rwa [hs]
  · rw [hs]
    exact h
  · rw [hs]
    cases hu : b.url? with
    | some u => rwa [ask_of_some hb hu]
    | none =>
      rw [ask_of_none hu]
      exact h.materialize

/-! ## runs -/

theorem Numbered.after (h : s.Numbered) (steps : List Step) : (s.after steps).Numbered := by
  induction steps generalizing s with
  | nil => exact h
  | cons x steps ih => exact ih (h.step x)

theorem block_after (hb : s.blocks[k]? = some b) (steps : List Step) :
    ∃ url?, (s.after steps).blocks[k]? = some { b with url? } := by
  induction steps generalizing s b with
  | nil => exact ⟨b.url?, hb⟩
  | cons x steps ih =>
    obtain ⟨_, hx⟩ := block_step hb x
    obtain ⟨url?, hsteps⟩ := ih hx
    exact ⟨url?, hsteps⟩

theorem bodyAt_after {t : Text} (h : s.bodyAt k = some t) (steps : List Step) :
    (s.after steps).bodyAt k = some t := by
  obtain ⟨b, hb, rfl⟩ := Option.map_eq_some_iff.1 h
  obtain ⟨url?, hafter⟩ := block_after hb steps
  rw [bodyAt, hafter]
  rfl

theorem Remembers.after {answers : List Answer} (h : s.Remembers k answers) (hnumbered : s.Numbered)
    (steps : List Step) : (s.after steps).Remembers k (answers ++ s.urlAnswers k steps) := by
  induction steps generalizing s answers with
  | nil => simpa [urlAnswers] using h
  | cons x steps ih =>
    rw [urlAnswers, ← List.append_assoc]
    exact ih (h.step hnumbered x) (hnumbered.step x)

theorem faithful_after (h : s.depot.Faithful) (steps : List Step) :
    (s.after steps).depot.Faithful := by
  induction steps generalizing s with
  | nil => exact h
  | cons x steps ih => exact ih (faithful_step h x)

/-! ## clones -/

theorem joinAdjacent_of_scalar {t : Text} (h : t.Scalar) : Value.joinAdjacent t = t := by
  induction t with
  | nil => rfl
  | cons c t ih =>
    obtain ⟨hc, ht⟩ := Text.scalar_cons.1 h
    cases c with
    | char c => rw [Value.joinAdjacent.eq_def]; simp [ih ht]
    | surrogate n => cases hc

theorem recover?_clone (h : b.body.Scalar) :
    Block.recover? b.clone.throughJson = some { body := b.body } := by
  have hjson : b.clone.throughJson = b.clone := by
    simp only [Block.clone, Value.throughJson, Value.throughJsonFields, joinAdjacent_of_scalar h]
    rfl
  rw [hjson]
  rfl

theorem step_clone (hk : s.number? name = some k) (hb : s.blocks[k]? = some b) (h : b.body.Scalar) :
    (s.step (.clone name target)).2 = s.put target { body := b.body } := by
  rw [step, withBlock_of_some hk hb]
  simp only [fixup, Candidate.fixup?, recover?_clone h]

/-- no body holds half of a surrogate pair -/
def Scalar (s : BlockStore) : Prop := ∀ k t, s.bodyAt k = some t → t.Scalar

theorem Scalar.step (h : s.Scalar) (hx : ∀ t ∈ x.body?, t.Scalar) : (s.step x).2.Scalar := by
  intro k t ht
  rcases step_cases s x with ⟨hs, -⟩ | ⟨name, b, hs, -, hb, -⟩ | ⟨name, j, b, -, -, hb, hs⟩
  · rw [hs] at ht
    exact h k t ht
  · rw [hs, bodyAt_put] at ht
    split at ht
    · obtain rfl := Option.some.inj ht
      rcases hb with hb | ⟨j, b', hb', hb⟩
      · exact hx b.body (by rw [Step.body?, hb]; rfl)
      · have hscalar : b'.body.Scalar := h j b'.body (by simp [bodyAt, hb'])
        rw [recover?_clone hscalar] at hb
        obtain rfl := Option.some.inj hb
        exact hscalar
    · exact h k t ht
  · obtain ⟨b', hb', rfl⟩ := Option.map_eq_some_iff.1 ht
    have hlen : (s.step x).2.blocks.length = s.blocks.length := by rw [hs, length_ask]
    have hlt : k < s.blocks.length := hlen ▸ (List.getElem?_eq_some_iff.1 hb').1
    obtain ⟨url?, hkept⟩ := block_step (List.getElem?_eq_getElem hlt) x
    obtain rfl := Option.some.inj (hb'.symm.trans hkept)
    exact h k s.blocks[k].body (by simp [bodyAt, hlt])

theorem Scalar.after (h : s.Scalar) (hx : ∀ x ∈ steps, ∀ t ∈ x.body?, t.Scalar) :
    (s.after steps).Scalar := by
  induction steps generalizing s with
  | nil => exact h
  | cons x steps ih =>
    obtain ⟨hx, hsteps⟩ := List.forall_mem_cons.1 hx
    exact ih (h.step hx) hsteps

/-- a step of the run makes the second block as a clone of the first -/
def Clones (s₀ : BlockStore) (steps : List Step) (k j : Nat) : Prop :=
  ∃ pre name target post, steps = pre ++ .clone name target :: post ∧
    (s₀.after pre).number? name = some k ∧ j = (s₀.after pre).blocks.length

/-! ## all of a run -/

/-- what a run may rely on, with the store behind its steps in view -/
structure Reliable (s₀ : BlockStore) (steps : List Step) : Prop where
  /-- every block memoizes its URL over all the answers that the run gave to requests for it -/
  memoizes : ∀ k, (s₀.after steps).Remembers k (s₀.urlAnswers k steps)
  /-- what a call of a materializer gave is what the materializer answers to the body it is called
  with -/
  faithful : (s₀.after steps).depot.Faithful
  /-- only a request for a URL calls a materializer -/
  lazy : ∀ x, (∀ name, x ≠ .url name) → ((s₀.after steps).step x).2.depot = (s₀.after steps).depot
  /-- a block says that it is materialized when a request has given it a URL -/
  tells : ∀ name k, (s₀.after steps).number? name = some k → ∃ flag,
    (s₀.after steps).step (.isMaterialized name) = (.flag flag, s₀.after steps) ∧
      (flag = true ↔ ∃ u, .text u ∈ s₀.urlAnswers k steps)
  /-- a step that fails changes no block and no name, and its error is the one of the call it made,
  if it made one -/
  fails : ∀ x e, ((s₀.after steps).step x).1 = .failed e →
    ((s₀.after steps).step x).2.blocks = (s₀.after steps).blocks ∧
    ((s₀.after steps).step x).2.names = (s₀.after steps).names ∧
    ((∃ name v m, x = .create name v m) ∨
      ∃ name k b, x = .url name ∧ (s₀.after steps).number? name = some k ∧
      (s₀.after steps).blocks[k]? = some b ∧
        ((s₀.after steps).step x).2.depot.log =
          (s₀.after steps).depot.log ++ [⟨k, b.materializer, b.body, .error e⟩])
  /-- a block that a step makes is there under its name, as the step brings it -/
  makes : ∀ pre x post name b, steps = pre ++ x :: post → x.made? = some (name, b) →
    (s₀.after (pre ++ [x])).number? name = some (s₀.after pre).blocks.length ∧
      (s₀.after (pre ++ [x])).blocks[(s₀.after pre).blocks.length]? = some b
  /-- a block has the body and the materializer for good that it was made with, and tells the
  body -/
  bodies : ∀ pre post, steps = pre ++ post → ∀ k b, (s₀.after pre).blocks[k]? = some b →
    (∃ url?, (s₀.after steps).blocks[k]? = some { b with url? }) ∧
      ∀ name, (s₀.after steps).number? name = some k →
        (s₀.after steps).step (.body name) = (.text b.body, s₀.after steps)
  /-- a clone is a new block under its name, with the body of the original and no URL -/
  clones : ∀ pre name target post k, steps = pre ++ .clone name target :: post →
    (s₀.after pre).number? name = some k → ∃ t, (s₀.after pre).bodyAt k = some t ∧
      (s₀.after (pre ++ [.clone name target])).number? target = some (s₀.after pre).blocks.length ∧
      (s₀.after (pre ++ [.clone name target])).blocks[(s₀.after pre).blocks.length]? =
        some { body := t }
  /-- clones of clones have the body still -/
  chains :
    ∀ k j, Relation.ReflTransGen (s₀.Clones steps) k j →
    (s₀.after steps).bodyAt j = (s₀.after steps).bodyAt k
  /-- a block is taken for itself -/
  fixes :
    ∀ name k, (s₀.after steps).number? name = some k →
      (s₀.after steps).step (.fixup name) = (.same, s₀.after steps)

theorem Memoizes.isMaterialized_iff {answers : List Answer} {calls : List MaterializerCall}
    (h : Memoizes k b answers calls) : b.isMaterialized = true ↔ ∃ u, .text u ∈ answers := by
  obtain ⟨failures, u, n, rfl, -, hurl⟩ := h
  rw [Block.isMaterialized, hurl]
  rcases Nat.eq_zero_or_pos n with rfl | hn
  · simp
  · rw [if_neg (by omega)]
    refine ⟨fun _ => ⟨u, ?_⟩, fun _ => rfl⟩
    simp [show n ≠ 0 by omega]

/-- a step that brings a block puts it under its name -/
theorem step_made (h : x.made? = some (name, b)) : (s.step x).2 = s.put name b := by
  cases x with
  | create name' v m =>
    cases v with
    | text t =>
      obtain ⟨rfl, rfl⟩ := Prod.mk.inj (Option.some.inj h)
      rfl
    | _ => cases h
  | recover name' v =>
    obtain ⟨b', hb', heq⟩ := Option.map_eq_some_iff.1 h
    obtain ⟨rfl, rfl⟩ := Prod.mk.inj heq
    simp only [step, fixup, Candidate.fixup?, hb']
  | _ => cases h

theorem depot_step (hx : ∀ name, x ≠ .url name) : (s.step x).2.depot = s.depot := by
  rcases step_cases s x with ⟨hs, -⟩ | ⟨name, b, hs, -⟩ | ⟨name, k, b, rfl, -⟩
  · rw [hs]
  · rw [hs]
    rfl
  · exact absurd rfl (hx name)

theorem step_failed {e : Failure} (h : (s.step x).1 = .failed e) :
    (s.step x).2.blocks = s.blocks ∧ (s.step x).2.names = s.names ∧
      ((∃ name v m, x = .create name v m) ∨
        ∃ name k b, x = .url name ∧ s.number? name = some k ∧ s.blocks[k]? = some b ∧
          (s.step x).2.depot.log = s.depot.log ++ [⟨k, b.materializer, b.body, .error e⟩]) := by
  rcases step_cases s x with ⟨hs, -, hcreate⟩ | ⟨name, b, -, -, -, -, hne⟩ |
    ⟨name, k, b, rfl, hk, hb, hs⟩
  · exact ⟨by rw [hs], by rw [hs], .inl (hcreate e h)⟩
  · exact absurd h (hne e)
  · rw [hs] at h ⊢
    cases hu : b.url? with
    | some u =>
      rw [ask_of_some hb hu] at h
      cases h
    | none =>
      rw [ask_of_none hu] at h ⊢
      cases hcall : (s.depot.materialize k b.materializer b.body).1 with
      | ok u =>
        rw [hcall] at h
        cases h
      | error e' =>
        rw [hcall] at h
        obtain rfl := Answer.failed.inj h
        refine ⟨?_, rfl, .inr ⟨name, k, b, rfl, hk, hb, ?_⟩⟩
        · simp only [Except.toOption]
          rw [← hu]
          exact set_self hb
        · simp only [Depot.log_materialize, hcall]

/-- in any run the step that clones a block makes a new one with its body, and nothing else -/
theorem after_clone (hnumbered : s₀.Numbered) (hscalar : s₀.Scalar)
    (h : ∀ x ∈ steps, ∀ t ∈ x.body?, t.Scalar) (hsteps : steps = pre ++ .clone name target :: post)
    (hk : (s₀.after pre).number? name = some k) : ∃ t, (s₀.after pre).bodyAt k = some t ∧
      s₀.after (pre ++ [.clone name target]) = (s₀.after pre).put target { body := t } := by
  obtain ⟨b, hb⟩ := (hnumbered.after pre).exists_block hk
  have hbody : (s₀.after pre).bodyAt k = some b.body := by simp [bodyAt, hb]
  have hbodies : (s₀.after pre).Scalar := hscalar.after fun x hx => h x (by simp [hsteps, hx])
  refine ⟨b.body, hbody, ?_⟩
  rw [after_append, after_cons, after_nil, step_clone hk hb (hbodies k _ hbody)]

theorem Clones.bodyAt_eq (hclones : s₀.Clones steps k j) (hnumbered : s₀.Numbered)
    (hscalar : s₀.Scalar) (h : ∀ x ∈ steps, ∀ t ∈ x.body?, t.Scalar) :
    (s₀.after steps).bodyAt j = (s₀.after steps).bodyAt k := by
  obtain ⟨pre, name, target, post, hsteps, hk, rfl⟩ := hclones
  obtain ⟨t, ht, hput⟩ := after_clone hnumbered hscalar h hsteps hk
  have hnew :
      (s₀.after (pre ++ [.clone name target])).bodyAt (s₀.after pre).blocks.length = some t := by
    rw [hput, bodyAt_put, if_pos rfl]
  have hbehind : s₀.after steps = (s₀.after (pre ++ [.clone name target])).after post := by
    simp [hsteps]
  have hbefore : s₀.after steps = (s₀.after pre).after (.clone name target :: post) := by
    rw [hsteps, after_append]
  calc (s₀.after steps).bodyAt (s₀.after pre).blocks.length
    _ = some t := by rw [hbehind, bodyAt_after hnew]
    _ = (s₀.after steps).bodyAt k := by rw [hbefore, bodyAt_after ht]

/-- Whatever the materializers and the file system do, a run of steps may be relied on. -/
theorem reliable_run (refusals : Nat → Option FileFault) (steps : List Step)
    (h : ∀ x ∈ steps, ∀ t ∈ x.body?, t.Scalar) :
    Reliable { depot := { refusals := refusals } } steps := by
  generalize hs₀ : ({ depot := { refusals := refusals } } : BlockStore) = s₀
  have hempty : ∀ k : Nat, s₀.blocks[k]? = none := by simp [← hs₀]
  have hnumbered₀ : s₀.Numbered := by
    intro name k hk
    simp [← hs₀, number?] at hk
  have hscalar₀ : s₀.Scalar := by
    intro k t ht
    simp [bodyAt, hempty] at ht
  have hmemoizes : ∀ k, (s₀.after steps).Remembers k (s₀.urlAnswers k steps) := by
    intro k
    have hstart : s₀.Remembers k [] := by
      rw [Remembers, hempty]
      exact ⟨rfl, by rw [← hs₀]; rfl⟩
    exact hstart.after hnumbered₀ steps
  have hfaithful₀ : s₀.depot.Faithful := by
    rw [← hs₀]
    exact Depot.faithful_empty refusals
  refine ⟨hmemoizes, faithful_after hfaithful₀ steps, fun x hx => depot_step hx,
    fun name k hk => ?_, fun x e he => step_failed he, fun pre x post name b hsteps hx => ?_,
    fun pre post hsteps k b hb => ?_, fun pre name target post k hsteps hk => ?_,
    fun k j hchain => ?_, fun name k hk => ?_⟩
  · obtain ⟨b, hb⟩ := (hnumbered₀.after steps).exists_block hk
    have hremembers := hmemoizes k
    rw [Remembers, hb] at hremembers
    exact ⟨b.isMaterialized, by rw [step, tell, withBlock_of_some hk hb],
          hremembers.isMaterialized_iff⟩
  · rw [after_append, after_cons, after_nil, step_made hx]
    exact ⟨by rw [number?_put, if_pos rfl], by rw [blocks_put, if_pos rfl]⟩
  · obtain ⟨url?, hafter⟩ : ∃ url?, (s₀.after steps).blocks[k]? = some { b with url? } := by
      rw [hsteps, after_append]
      exact block_after hb post
    refine ⟨⟨url?, hafter⟩, fun name hk => ?_⟩
    rw [step, tell, withBlock_of_some hk hafter]
  · obtain ⟨t, ht, hput⟩ := after_clone hnumbered₀ hscalar₀ h hsteps hk
    refine ⟨t, ht, ?_, ?_⟩
    · rw [hput, number?_put, if_pos rfl]
    · rw [hput, blocks_put, if_pos rfl]
  · induction hchain with
    | refl => rfl
    | tail _ hlast ih => rw [hlast.bodyAt_eq hnumbered₀ hscalar₀ h, ih]
  · obtain ⟨b, hb⟩ := (hnumbered₀.after steps).exists_block hk
    rw [step, withBlock_of_some hk hb]
    rfl

/-- a block whose materializer fails once, another one that is asked between, and a clone -/
theorem reliable_run_clone :
    urlAnswers {} 0
        [.create "a" (.text "x") (.counted (· < 1)),
          .create "c" (.text "y") (.counted fun _ => false),
          .url "a", .isMaterialized "a", .url "c", .url "a", .url "a", .clone "a" "b",
          .isMaterialized "b"] =
      [.failed .storeRefused, .text "mem:3", .text "mem:3"] ∧
    Reliable { depot := { refusals := fun _ => none } }
      [.create "a" (.text "x") (.counted (· < 1)),
        .create "c" (.text "y") (.counted fun _ => false),
        .url "a", .isMaterialized "a", .url "c", .url "a", .url "a", .clone "a" "b",
        .isMaterialized "b"] := by
  refine ⟨rfl, reliable_run (fun _ => none) _ fun x hx t ht => ?_⟩
  have hbodies :
      ∀ x ∈ ([.create "a" (.text "x") (.counted (· < 1)),
          .create "c" (.text "y") (.counted fun _ => false),
          .url "a", .isMaterialized "a", .url "c", .url "a", .url "a", .clone "a" "b",
          .isMaterialized "b"] : List Step), ∀ t ∈ x.body?, t = "x" ∨ t = "y" := by
    simp [Step.body?, Step.made?, Value.text?]
  rcases hbodies x hx t ht with rfl | rfl
  · exact Text.scalar_ofString "x"
  · exact Text.scalar_ofString "y"

end BlockStore

end Relocation
