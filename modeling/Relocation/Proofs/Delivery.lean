import Mathlib.Data.List.Forall2
import Mathlib.Data.List.Nodup
import Relocation.Command.Machine
import Relocation.Proofs.Bytes
import Relocation.Proofs.Faultless
import Relocation.Proofs.Overwriting
import Relocation.Proofs.Patching
import Relocation.Proofs.Rows

/-!
# Delivering results

A command line that asks for results in files delivers all of them, or changes no file at all, as
long as every text has bytes and the files can be opened or cannot be opened together
(`Machine.obey_delivers`).  All that can fail in the source has failed before the first file is
opened; what is left is to open each file and to turn its text into bytes.  The latter is done too
late: a text with half of a surrogate pair empties its file (`Machine.obey_truncates`).
-/

namespace Relocation

/-! ## effects -/

/-- does a step only say something? -/
def Effect.IsTalk : Effect → Prop
  | .print _ => True
  | .report _ => True
  | _ => False

namespace Script

variable {job : Job}

/-- a script that says something and fails -/
def Refuses (s : Script) : Prop :=
  (∀ e ∈ s.effects, e.IsTalk) ∧ (s.ending = .exit 1 ∨ ∃ f, s.ending = .failed f)

theorem isTalk_complain (d : Diagnostic) : (complain job d).IsTalk := by
  unfold complain
  simp only
  split <;> trivial

variable {α : Type} {content : Except Failure (List UInt8)} {compute : Text → Noted α}
  {deliver : α → Script}

/-- the results of a source file, if it can be read and has no fault -/
def result? (content : Except Failure (List UInt8)) (compute : Text → Noted α) : Option α :=
  content.toOption.bind fun bytes => (Text.ofFile? bytes).bind fun source =>
    (compute source).result.toOption

theorem ofSource_of_result? {a : α} (h : result? content compute = some a) :
    ofSource false job content compute deliver = deliver a := by
  obtain ⟨bytes, hbytes, hread⟩ := Option.bind_eq_some_iff.1 h
  obtain ⟨source, hsource, hresult⟩ := Option.bind_eq_some_iff.1 hread
  obtain rfl := Except.toOption_eq_some.1 hbytes
  simp [ofSource, hsource, Except.toOption_eq_some.1 hresult, tell]

/-- a source that cannot be read or has a fault makes a script refuse -/
theorem refuses_ofSource (h : result? content compute = none) :
    (ofSource false job content compute deliver).Refuses := by
  rcases content with f | bytes
  · cases f with
    | file f => exact ⟨List.forall_mem_singleton.2 (isTalk_complain _), .inl rfl⟩
    | _ => exact ⟨List.forall_mem_nil _, .inr ⟨_, rfl⟩⟩
  · cases hsource : Text.ofFile? bytes with
    | none =>
      simp only [ofSource, hsource]
      exact ⟨List.forall_mem_nil _, .inr ⟨_, rfl⟩⟩
    | some source =>
      cases hresult : (compute source).result with
      | ok a => simp [result?, Except.toOption, hsource, hresult] at h
      | error f =>
        simp only [ofSource, hsource, hresult, tell]
        cases f with
        | source e => exact ⟨List.forall_mem_singleton.2 (isTalk_complain _), .inl rfl⟩
        | _ => exact ⟨List.forall_mem_nil _, .inr ⟨_, rfl⟩⟩

end Script

namespace Machine

variable {m m' : Machine} {p : Path} {t : Text} {l : Location} {bytes : List UInt8}
  {effects : List Effect} {files : List (Path × Text)} {places : List Location}

theorem tree_perform {e : Effect} (h : e.IsTalk) : (m.perform e).1.tree = m.tree := by
  cases e with
  | print t =>
    rw [perform]
    split <;> rfl
  | report line => rfl
  | _ => cases h

theorem tree_performAll (h : ∀ e ∈ effects, e.IsTalk) : (m.performAll effects).1.tree = m.tree := by
  induction effects generalizing m with
  | nil => rfl
  | cons e effects ih =>
    obtain ⟨he, heffects⟩ := List.forall_mem_cons.1 h
    have htree := tree_perform (m := m) he
    rw [performAll]
    split
    · rename_i m' hm'
      rw [ih heffects, ← htree, hm']
    · rename_i m' f hm'
      rw [← htree, hm']

/-- the place that a path can be written to -/
def place? (m : Machine) (p : Path) : Option Location :=
  if p.hasNull then none else (m.tree.writeTarget m.cwd p).toOption

/-- the paths can all be written to, each at a place of its own, or none can -/
def AllOrNone (m : Machine) (paths : List Path) : Prop :=
  (∀ p ∈ paths, m.place? p = none) ∨
    ∃ places, List.Forall₂ (fun p l => m.place? p = some l) paths places ∧ places.Nodup

theorem allOrNone_singleton : m.AllOrNone [p] := by
  cases hp : m.place? p with
  | none => exact .inl (by simpa using hp)
  | some l => exact .inr ⟨[l], .cons hp .nil, List.nodup_singleton l⟩

theorem place?_eq_some :
    m.place? p = some l ↔ p.hasNull = false ∧ m.tree.writeTarget m.cwd p = .ok l := by
  unfold place?
  cases p.hasNull with
  | true => simp
  | false => simp [Except.toOption_eq_some]

theorem write_of_place (hp : m.place? p = some l) (ht : t.utf8? = some bytes) :
    m.write p t = ({ m with tree := m.tree.put (.file bytes) l }, none) := by
  obtain ⟨hnull, htarget⟩ := place?_eq_some.1 hp
  simp only [write, hnull, ht, FileTree.write, htarget]
  rfl

theorem write_of_no_place (hp : m.place? p = none) (ht : t.utf8? = some bytes) :
    ∃ f, m.write p t = (m, some f) := by
  cases hnull : p.hasNull with
  | true => exact ⟨_, by rw [write, if_pos hnull]⟩
  | false =>
    cases htarget : m.tree.writeTarget m.cwd p with
    | error f => exact ⟨.file f, by simp [write, hnull, ht, FileTree.write, htarget]⟩
    | ok l =>
      rw [place?_eq_some.2 ⟨hnull, htarget⟩] at hp
      cases hp

/-- the path leads to a place with a file of these bytes -/
def Keeps (m : Machine) (p : Path) (l : Location) (bytes : List UInt8) : Prop :=
  m.place? p = some l ∧ m.tree.get? l = some (.file bytes)

theorem Keeps.read (h : m.Keeps p l bytes) (hcwd : m.tree.isDirectoryAt m.cwd = true) :
    m.read p = .ok bytes := by
  obtain ⟨hnull, htarget⟩ := place?_eq_some.1 h.1
  rw [Machine.read, if_neg (by simp [hnull]), FileTree.read_of_writeTarget hcwd htarget h.2]

/-- the machine after a file was put at a place -/
def withFile (m : Machine) (l : Location) (bytes : List UInt8) : Machine :=
  { m with tree := m.tree.put (.file bytes) l }

section WithFile

variable {q : Path} {l' : Location} {bytes' : List UInt8}

theorem overwrites_withFile (hcwd : m.tree.isDirectoryAt m.cwd = true) (hp : m.place? p = some l) :
    m.tree.Overwrites (m.withFile l bytes).tree l :=
  FileTree.overwrites_put (FileTree.free_of_writeTarget hcwd (place?_eq_some.1 hp).2)

theorem place?_withFile (hcwd : m.tree.isDirectoryAt m.cwd = true) (hp : m.place? p = some l)
    (hq : m.place? q = some l') : (m.withFile l bytes).place? q = some l' := by
  obtain ⟨hnull, htarget⟩ := place?_eq_some.1 hq
  exact place?_eq_some.2 ⟨hnull, (overwrites_withFile hcwd hp).writeTarget hcwd htarget⟩

theorem keeps_withFile (hcwd : m.tree.isDirectoryAt m.cwd = true) (hp : m.place? p = some l) :
    (m.withFile l bytes).Keeps p l bytes := by
  refine ⟨place?_withFile hcwd hp hp, FileTree.bareAt?_eq_file.1 ?_⟩
  have hover : m.tree.Overwrites (m.withFile l bytes).tree l := overwrites_withFile hcwd hp
  rw [withFile, FileTree.bareAt?_put_file hover.1, if_pos rfl]

theorem Keeps.withFile (h : m.Keeps q l' bytes') (hcwd : m.tree.isDirectoryAt m.cwd = true)
    (hp : m.place? p = some l) (hne : l' ≠ l) : (m.withFile l bytes).Keeps q l' bytes' := by
  refine ⟨place?_withFile hcwd hp h.1, FileTree.bareAt?_eq_file.1 ?_⟩
  rw [(overwrites_withFile hcwd hp).2.2 l' hne]
  exact FileTree.bareAt?_eq_file.2 h.2

end WithFile

/-- texts with bytes for places that differ are all written, and what is at other places is kept -/
theorem performAll_writes (hcwd : m.tree.isDirectoryAt m.cwd = true)
    (hplaces : List.Forall₂ (fun f l => m.place? f.1 = some l) files places) (hnodup : places.Nodup)
    (htexts : ∀ f ∈ files, f.2.Scalar) :
    ∃ m', m.performAll (files.map fun f => .write f.1 f.2) = (m', none) ∧
    m'.tree.isDirectoryAt m'.cwd = true ∧
      (∀ p l bytes, m.Keeps p l bytes → l ∉ places → m'.Keeps p l bytes) ∧
      ∀ f ∈ files, ∃ l bytes, f.2.utf8? = some bytes ∧ m'.Keeps f.1 l bytes := by
  induction files generalizing m places with
  | nil => exact ⟨m, rfl, hcwd, fun _ _ _ h _ => h, by simp⟩
  | cons f files ih =>
    cases hplaces with | @cons _ l _ places hf hfiles => ?_
    obtain ⟨hl, hnodup⟩ := List.nodup_cons.1 hnodup
    obtain ⟨hfirst, htexts⟩ := List.forall_mem_cons.1 htexts
    obtain ⟨bytes, hbytes⟩ := hfirst.exists_utf8?
    have hcwd' : (m.withFile l bytes).tree.isDirectoryAt (m.withFile l bytes).cwd = true :=
      (overwrites_withFile hcwd hf).isDirectoryAt.trans hcwd
    obtain ⟨m', hm', hend, hkept, hwritten⟩ :=
      ih hcwd' (hfiles.imp fun _ _ h => place?_withFile hcwd hf h) hnodup htexts
    refine ⟨m', ?_, hend, fun p l' bytes' hp hl' => ?_, List.forall_mem_cons.2 ⟨?_, hwritten⟩⟩
    · rw [List.map_cons, performAll, perform, write_of_place hf hbytes]
      exact hm'
    · obtain ⟨hne, hl'⟩ := not_or.1 (List.mem_cons.not.1 hl')
      exact hkept p l' bytes' (hp.withFile hcwd hf hne) hl'
    · exact ⟨l, bytes, hbytes, hkept f.1 l bytes (keeps_withFile hcwd hf) hl⟩

/-- files that can all be opened or cannot be opened together are all written, or nothing is -/
theorem performAll_writes_or (hcwd : m.tree.isDirectoryAt m.cwd = true)
    (hplaces : m.AllOrNone (files.map (·.1))) (htexts : ∀ f ∈ files, f.2.Scalar) :
    (∃ m', m.performAll (files.map fun f => .write f.1 f.2) = (m', none) ∧
      ∀ f ∈ files, ∃ bytes, f.2.utf8? = some bytes ∧ m'.read f.1 = .ok bytes) ∨
    ∃ f, m.performAll (files.map fun f => .write f.1 f.2) = (m, some f) := by
  rcases hplaces with hnone | ⟨places, hplaces, hnodup⟩
  · cases files with
    | nil => exact .inl ⟨m, rfl, by simp⟩
    | cons f files =>
      obtain ⟨bytes, hbytes⟩ := (htexts f List.mem_cons_self).exists_utf8?
      obtain ⟨fault, hfault⟩ := write_of_no_place (hnone f.1 List.mem_cons_self) hbytes
      exact .inr ⟨fault, by rw [List.map_cons, performAll, perform, hfault]⟩
  · obtain ⟨m', hm', hend, -, hwritten⟩ :=
      performAll_writes hcwd (List.forall₂_map_left_iff.1 hplaces) hnodup htexts
    refine .inl ⟨m', hm', fun f hf => ?_⟩
    obtain ⟨l, bytes, hbytes, hkeeps⟩ := hwritten f hf
    exact ⟨bytes, hbytes, hkeeps.read hend⟩

end Machine

/-! ## orders -/

/-- a request for results in files: what to read, and where to put what comes of it -/
inductive Order
  | compile (source output : Text)
  | extract (source metaUrl directory : Text)

namespace Order

variable {m : Machine} {o : Order} {i : Invocation}

/-- the order as a row of arguments -/
def row : Order → List Text
  | .compile source output => ["compile", source, "-o", output]
  | .extract source metaUrl directory => ["extract", source, "--meta-url", metaUrl, "-o", directory]

def command : Order → Command
  | .compile source output =>
    .compile { source := .ofText source, output := .path (.ofText output) }
  | .extract source metaUrl directory =>
    .extract { source := .ofText source, output := .path (.ofText directory) } (some metaUrl)

/-- the files that an order makes on a machine, if the source can be read and has no fault -/
def files? (o : Order) (m : Machine) : Option (List (Path × Text)) :=
  match o with
  | .compile _ output => (Script.result? (m.content o.command) (Compile.text {})).map fun text =>
    [(.ofText output, text ++ Script.lineEnd)]
  | .extract _ metaUrl directory =>
    (Script.result? (m.content o.command) (Compile.bodies {} · metaUrl)).map fun bodies =>
    (bodies.zipIdx 1).map fun (body, k) => ((Path.ofText directory).child (Script.blockFile k),
      body ++ Script.lineEnd)

/-- the machine once the directory is there that files are to be put into -/
def prepared (m : Machine) : Order → Machine
  | .compile .. => m
  | .extract _ _ directory => (m.makeDirectories (.ofText directory)).1

/-- what is asked of a directory: its files can all be opened, each at a place of its own, or none
can -/
def Takes (m : Machine) : Order → Prop
  | .compile .. => True
  | .extract source metaUrl directory =>
    ∀ files, (extract source metaUrl directory).files? m = some files →
    ((extract source metaUrl directory).prepared m).AllOrNone (files.map (·.1))

theorem allOrNone_of_takes {files : List (Path × Text)} (h : o.Takes m)
    (hfiles : o.files? m = some files) : (o.prepared m).AllOrNone (files.map (·.1)) := by
  cases o with
  | compile source output =>
    obtain ⟨text, -, rfl⟩ := Option.map_eq_some_iff.1 hfiles
    exact Machine.allOrNone_singleton
  | extract source metaUrl directory => exact h files hfiles

theorem spells_output_compile : Command.Verb.compile.options.Spells "-o" .output :=
  ⟨by decide, rfl, true, by decide⟩

theorem spells_output_extract : Command.Verb.extract.options.Spells "-o" .output :=
  ⟨by decide, rfl, true, by decide⟩

theorem spells_metaUrl_extract : Command.Verb.extract.options.Spells "--meta-url" .metaUrl :=
  ⟨by decide, rfl, false, by decide⟩

/-- a row that is read at all is read as the order's command -/
theorem eq_of_read (h : Invocation.read o.row = .ok i) : i = ⟨false, o.command⟩ := by
  cases o with
  | compile source output =>
    obtain ⟨c, hc, rfl⟩ := Invocation.eq_of_read (by decide) (by decide) h
    have hknown : ∀ s ∈ [(⟨"-o", .output, output⟩ : Setting)],
        Command.Verb.compile.options.Spells s.spelling s.flag :=
      List.forall_mem_singleton.2 spells_output_compile
    have hgiven := Command.eq_of_read rfl hknown (by simp) hc
    exact congrArg (Invocation.mk false) (Except.ok.inj hgiven).symm
  | extract source metaUrl directory =>
    obtain ⟨c, hc, rfl⟩ := Invocation.eq_of_read (by decide) (by decide) h
    have hknown : ∀ s ∈ [(⟨"--meta-url", .metaUrl, metaUrl⟩ : Setting), ⟨"-o", .output, directory⟩],
        Command.Verb.extract.options.Spells s.spelling s.flag :=
      List.forall_mem_cons.2 ⟨spells_metaUrl_extract,
        List.forall_mem_singleton.2 spells_output_extract⟩
    have hgiven := Command.eq_of_read rfl hknown (by simp) hc
    exact congrArg (Invocation.mk false) (Except.ok.inj hgiven).symm

/-- what is done before files are written -/
def preparation : Order → List Effect
  | .compile .. => []
  | .extract _ _ directory => [.makeDirectories (.ofText directory)]

/-- the script of an order -/
def script (o : Order) (m : Machine) : Script :=
  Script.ofInvocation ⟨false, o.command⟩ (m.content o.command)

theorem script_of_files? {files : List (Path × Text)} (h : o.files? m = some files) :
    o.script m = ⟨o.preparation ++ files.map fun f => .write f.1 f.2, .exit 0⟩ := by
  cases o with
  | compile source output =>
    obtain ⟨text, htext, rfl⟩ := Option.map_eq_some_iff.1 h
    exact Script.ofSource_of_result? htext
  | extract source metaUrl directory =>
    obtain ⟨bodies, hbodies, rfl⟩ := Option.map_eq_some_iff.1 h
    refine (Script.ofSource_of_result? hbodies).trans ?_
    rw [List.map_map, List.map_eq_flatMap]
    rfl

theorem refuses_script (h : o.files? m = none) : (o.script m).Refuses := by
  cases o with
  | compile source output => exact Script.refuses_ofSource (Option.map_eq_none_iff.1 h)
  | extract source metaUrl directory => exact Script.refuses_ofSource (Option.map_eq_none_iff.1 h)

/-- preparing makes directories at most -/
theorem grows_prepared : m.tree.Grows (o.prepared m).tree := by
  cases o with
  | compile => exact .refl
  | extract source metaUrl directory =>
    rw [prepared, Machine.makeDirectories]
    split
    · exact .refl
    · exact FileTree.grows_makeDirectories

theorem cwd_prepared : (o.prepared m).cwd = m.cwd := by
  cases o with
  | compile => rfl
  | extract source metaUrl directory =>
    rw [prepared, Machine.makeDirectories]
    split <;> rfl

theorem performAll_preparation (effects : List Effect) :
    m.performAll (o.preparation ++ effects) = (o.prepared m).performAll effects ∨
      ∃ f, m.performAll (o.preparation ++ effects) = (o.prepared m, some f) := by
  cases o with
  | compile => exact .inl rfl
  | extract source metaUrl directory =>
    rw [preparation, prepared, List.singleton_append, Machine.performAll, Machine.perform]
    split
    · rename_i m' hm'
      exact .inl (by rw [hm'])
    · rename_i m' f hm'
      exact .inr ⟨f, by rw [hm']⟩

end Order

namespace Machine

variable {m : Machine} {o : Order} {i : Invocation} {files : List (Path × Text)}

theorem obey_row (h : Invocation.read o.row = .ok i) :
    m.obey o.row = ((m.play (o.script m)).1, .ok (m.play (o.script m)).2) := by
  unfold obey
  rw [h]
  obtain rfl := Order.eq_of_read h
  rfl

/-- what refuses changes no file and does not exit with 0 -/
theorem play_of_refuses {s : Script} (h : s.Refuses) :
    (m.play s).1.tree = m.tree ∧ ((m.play s).2 = .exit 1 ∨ ∃ f, (m.play s).2 = .failed f) := by
  have htree := tree_performAll (m := m) h.1
  unfold play
  split
  · rename_i m' hm'
    rw [hm'] at htree
    exact ⟨htree, h.2⟩
  · rename_i m' f hm'
    rw [hm'] at htree
    exact ⟨htree, .inr ⟨f, rfl⟩⟩

/-- what is left to fail when the files of an order are known fails before the first of them is
opened -/
theorem play_delivers (hcwd : m.tree.isDirectoryAt m.cwd = true) (htakes : o.Takes m)
    (hfiles : o.files? m = some files) (htexts : ∀ f ∈ files, f.2.Scalar) :
    (∃ m', m.play (o.script m) = (m', .exit 0) ∧
      ∀ f ∈ files, ∃ bytes, f.2.utf8? = some bytes ∧ m'.read f.1 = .ok bytes) ∨
    ∃ f, m.play (o.script m) = (o.prepared m, .failed f) := by
  rw [Order.script_of_files? hfiles, play]
  have hcwd' : (o.prepared m).tree.isDirectoryAt (o.prepared m).cwd = true := by
    rw [Order.cwd_prepared]
    exact Order.grows_prepared.directories m.cwd hcwd
  rcases Order.performAll_preparation (files.map fun f => .write f.1 f.2) with hprepared |
    ⟨f, hprepared⟩
  · rcases performAll_writes_or hcwd' (Order.allOrNone_of_takes htakes hfiles) htexts with
      ⟨m', hm', hread⟩ | ⟨f, hf⟩
    · exact .inl ⟨m', by rw [hprepared, hm'], hread⟩
    · exact .inr ⟨f, by rw [hprepared, hf]⟩
  · exact .inr ⟨f, by rw [hprepared]⟩

/-- A command line that asks for results in files exits with 0, and then every file reads as its
text, or it exits with 1 or is broken off, and then all files and links are as before and there are
no others. -/
theorem obey_delivers (hcwd : m.tree.isDirectoryAt m.cwd = true) (htakes : o.Takes m)
    (htexts : ∀ files, o.files? m = some files → ∀ f ∈ files, f.2.Scalar) :
    ((m.obey o.row).2 = .ok (.exit 0) ∧ ∃ files, o.files? m = some files ∧
      ∀ f ∈ files, ∃ bytes, f.2.utf8? = some bytes ∧ (m.obey o.row).1.read f.1 = .ok bytes) ∨
    (((m.obey o.row).2 = .ok (.exit 1) ∨ ∀ code, (m.obey o.row).2 ≠ .ok (.exit code)) ∧
      m.tree.Grows (m.obey o.row).1.tree) := by
  cases hi : Invocation.read o.row with
  | error stop =>
    rw [obey, hi]
    exact .inr ⟨.inr (by simp), .refl⟩
  | ok i =>
    rw [obey_row hi]
    cases hfiles : o.files? m with
    | none =>
      obtain ⟨htree, hending⟩ := play_of_refuses (m := m) (Order.refuses_script hfiles)
      refine .inr ⟨?_, by rw [htree]; exact .refl⟩
      rcases hending with hending | ⟨f, hending⟩
      · exact .inl (by rw [hending])
      · exact .inr (by simp [hending])
    | some files =>
      rcases play_delivers hcwd htakes hfiles (htexts files hfiles) with ⟨m', hm', hread⟩ | ⟨f, hf⟩
      · rw [hm']
        exact .inl ⟨rfl, files, rfl, hread⟩
      · rw [hf]
        exact .inr ⟨.inr (by simp), Order.grows_prepared⟩

/-- a machine with a module of two blocks -/
def blocksMachine : Machine where
  tree :=
    .directory
      [("x.js",
        .file ((Text.utf8? (Text.ofString "f(module \x7b \x7d, module \x7b b \x7d)")).getD []))]

/-- the bodies go into a directory that is not there yet -/
theorem obey_delivers_bodies :
    (blocksMachine.obey ["extract", "x.js", "--meta-url", "https://h/m.js", "-o", "a/b"]).2 =
      .ok (.exit 0) ∧
    ∃ bytes, Text.utf8?
        (Text.ofString "import \x7b ModuleBlock \x7d from \"https://h/module-blocks-shim.js\";\nb\n") =
        some bytes ∧
      (blocksMachine.obey ["extract", "x.js", "--meta-url", "https://h/m.js", "-o", "a/b"]).1.read
        (.ofText "a/b/block-2.mjs") = .ok bytes := by
  have hexit :
      (blocksMachine.obey ["extract", "x.js", "--meta-url", "https://h/m.js", "-o", "a/b"]).2 =
        .ok (.exit 0) := by
    rw [blocksMachine, Text.ofString_ofList]
    decide +kernel
  have hfiles : Order.files? (.extract "x.js" "https://h/m.js" "a/b") blocksMachine = some [
      (.ofText "a/b/block-1.mjs",
        Text.ofString "import \x7b ModuleBlock \x7d from \"https://h/module-blocks-shim.js\";\n"),
      (.ofText "a/b/block-2.mjs",
        Text.ofString "import \x7b ModuleBlock \x7d from \"https://h/module-blocks-shim.js\";\nb\n")] := by
    rw [blocksMachine, Text.ofString_ofList, Text.ofString_ofList, Text.ofString_ofList]
    decide +kernel
  have htakes : (Order.extract "x.js" "https://h/m.js" "a/b").Takes blocksMachine := by
    intro files h
    obtain rfl := Option.some.inj (hfiles.symm.trans h)
    exact .inr ⟨[["a", "b", "block-1.mjs"], ["a", "b", "block-2.mjs"]],
      .cons (by decide +kernel) (.cons (by decide +kernel) .nil), by decide⟩
  have htexts :
      ∀ files, Order.files? (.extract "x.js" "https://h/m.js" "a/b") blocksMachine = some files →
      ∀ f ∈ files, f.2.Scalar := by
    intro files h f hf
    obtain rfl := Option.some.inj (hfiles.symm.trans h)
    rcases List.mem_pair.1 hf with rfl | rfl
    · exact Text.scalar_ofString _
    · exact Text.scalar_ofString _
  rcases obey_delivers rfl htakes htexts with ⟨-, files, h, hread⟩ | ⟨h | h, -⟩
  · obtain rfl := Option.some.inj (hfiles.symm.trans h)
    exact ⟨hexit, hread _ (List.mem_cons_of_mem _ (List.mem_singleton_self _))⟩
  · cases hexit.symm.trans h
  · exact absurd hexit (h 0)

end Machine

/-! ## texts without bytes -/

namespace Compile

open Item

/-- the body of a block that imports half of a surrogate pair -/
def halved : List Item := [.name "import", .leaf .string "'./\\ud800'" {}]

/-- what the body is compiled to -/
def halvedText : Text :=
  Text.ofString "import \x7b ModuleBlock \x7d from \"/module-blocks-shim.js\";\nimport './\\ud800'"

def halvedPlan : Plan :=
  ⟨halvedText, Text.ofString "import \x7b ModuleBlock \x7d from ",
    [(.staticImport (some (Text.ofString "/module-blocks-shim.js")), Text.ofString ";\nimport "),
      (.staticImport (some (Text.ofString "./" ++ [.surrogate 0])), [])]⟩

theorem planOf_halved : planOf halvedText = .ok halvedPlan := by
  have hscan : (Program.read halvedText >>= fun p => Split.scanFrom false 0 p.items) =
      .ok [⟨.staticImport, 28, 52⟩, ⟨.staticImport, 61, 71⟩] := by
    rw [halvedText, Text.ofString_ofList]
    decide +kernel
  rw [Plan.planOf_eq_cutAll hscan (List.pairwise_pair.2 (by decide))]
  rfl

/-- what a module with the block is compiled to -/
def halvedModule : Text :=
  Text.ofString "import \x7b ModuleBlock \x7d from \"/module-blocks-shim.js\";\n" ++
    Text.ofString "new ModuleBlock(\x60import \x7b ModuleBlock \x7d from " ++
    Text.ofString "$\x7bJSON.stringify(new URL(\"/module-blocks-shim.js\", import.meta.url))\x7d;\n" ++
    Text.ofString "import $\x7bJSON.stringify(new URL(\"./" ++ .surrogate 0 ::
    Text.ofString "\", import.meta.url))\x7d\x60)"

theorem text_halved :
    (text {} (Text.ofString "module \x7b import './\\ud800' \x7d")).result = .ok halvedModule := by
  have hprint :
      print [.block halved {} false] = Text.ofString "module \x7b import './\\ud800' \x7d" := by
    decide +kernel
  have hfits : FitsAll .start halved :=
    ⟨fits_name (readable_of_front (by decide)) _, fits_string (readable_of_front (by decide)) _,
      trivial⟩
  have hblock : FitsAll .start [.block halved {} false] := ⟨⟨rfl, hfits⟩, trivial⟩
  obtain ⟨p, hread, halike⟩ := Program.read_print_alike hblock (by decide)
  rw [hprint] at hread
  have hprinted : printed {} halved = .ok halvedText := by
    rw [halvedText, Text.ofString_ofList]
    decide +kernel
  have hlowered : (lower {} halved).result = .ok (halved, []) := by rfl
  have hplan : (bodyPlan {} halved).result = .ok halvedPlan := by
    simp only [result_bodyPlan, hprinted, bind, Except.bind]
    exact planOf_halved
  refine text_of_alike hread halike ?_
  rw [result_lower_block hlowered hplan rfl rfl]
  decide +kernel

end Compile

namespace Machine

/-- a machine with the module, and with a file in the place of the output -/
def halvedMachine : Machine where
  tree := .directory [
    ("x.js", .file ((Text.utf8? (Text.ofString "module \x7b import './\\ud800' \x7d")).getD [])),
    ("o.js", .file [111, 108, 100])]

/-- the output file is emptied before its text turns out to have no bytes -/
theorem obey_truncates :
    (halvedMachine.obey ["compile", "x.js", "-o", "o.js"]).2 = .ok (.failed .notEncodable) ∧
      halvedMachine.read (.ofText "o.js") = .ok [111, 108, 100] ∧
      (halvedMachine.obey ["compile", "x.js", "-o", "o.js"]).1.read (.ofText "o.js") = .ok [] := by
  have hread : Invocation.read (Order.row (.compile "x.js" "o.js")) =
      .ok ⟨false, Order.command (.compile "x.js" "o.js")⟩ := rfl
  have hfiles : Order.files? (.compile "x.js" "o.js") halvedMachine =
      some [(.ofText "o.js", Compile.halvedModule ++ Script.lineEnd)] := by
    have hcontent : halvedMachine.content (Order.command (.compile "x.js" "o.js")) =
        .ok ((Text.utf8? (Text.ofString "module \x7b import './\\ud800' \x7d")).getD []) := by
      decide +kernel
    have hsource :
        Text.ofFile? ((Text.utf8? (Text.ofString "module \x7b import './\\ud800' \x7d")).getD []) =
          some (Text.ofString "module \x7b import './\\ud800' \x7d") := by decide +kernel
    simp [Order.files?, Script.result?, hcontent, Except.toOption, hsource, Compile.text_halved]
  have hobey := obey_row (m := halvedMachine) hread
  rw [Order.script_of_files? hfiles] at hobey
  show (halvedMachine.obey (Order.row (.compile "x.js" "o.js"))).2 = _ ∧ _ ∧
    (halvedMachine.obey (Order.row (.compile "x.js" "o.js"))).1.read _ = _
  rw [hobey]
  decide +kernel

end Machine

end Relocation
