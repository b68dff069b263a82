import CircuitGrad.Proofs.Decoding
import CircuitGrad.Proofs.Validity
import CircuitGrad.Trace.Fingerprint

/-! # What a fingerprint tells

    The content of a trace is all that its result can depend on, with numbers
    by their bits.  A fingerprint is a function of the content, and almost
    determines it: register, names, parameters, measurements and shots can be
    read back one after the other, each from where the one before ends.

    The gap is the wires of an operation, which are written without their
    number.  Two traces with one fingerprint have the same content exactly
    when operations of one name, at the same place, have equally many wires
    (`content_eq_iff`).  Gates on a fixed number of wires never violate this;
    a gate on any number of wires does (`fingerprint_collision`), since a
    parameter and the fields that follow it can be read as a wire and the
    fields before it.
-/

namespace CircuitGrad

open CircuitGrad.Representation

/-! ## Content -/

/-- The same observable with coefficients by their bits. -/
def Observable.bits : Observable Float → Observable UInt64
  | .word w => .word w
  | .hamiltonian h => .hamiltonian ⟨h.terms.map fun (c, w) => (c.toBits, w)⟩

/-- The same measurement with coefficients by their bits. -/
def Measurement.bits (m : Measurement Float) : Measurement UInt64 :=
  ⟨m.readout, m.observable.map Observable.bits, m.wires⟩

/-- Name, wires and bits of the parameters. -/
def Operation.content (op : Operation Float) : String × List Nat × List UInt64 :=
  (op.name, op.wires, op.params.map fun p => p.value.toBits)

/-- All that the result of a trace can depend on. -/
structure TraceContent where
  register     : Nat
  operations   : List (String × List Nat × List UInt64)
  measurements : List (Measurement UInt64)
  shots        : Shots

def Trace.content (t : Trace Float) : TraceContent :=
  ⟨t.register, t.operations.map Operation.content, t.measurements.map Measurement.bits, t.shots⟩

/-! ## Sizes

    Every size, count and wire is a 64-bit word, and measurements come from
    their constructors.  Neither is a restriction on the traces that a program
    can hold. -/

/-- Measurements as their constructors make them. -/
inductive Measurement.Built : Measurement Float → Prop
  | ofObservable (readout : Readout) (o : Observable Float) : Built (.ofObservable readout o)
  | probs (wires : List Nat) : Built (.probs wires)
  | state : Built .state
  | withReadout {m : Measurement Float} (readout : Readout) :
      Built m → Built (m.withReadout readout)

/-- The wires of a measurement with an observable are those of the observable. -/
theorem Measurement.Built.wires_eq {m : Measurement Float} (hm : m.Built) :
    ∀ o, m.observable = some o → m.wires = o.wires := by
  induction hm with
  | ofObservable readout o =>
    intro o' ho
    obtain rfl : o = o' := Option.some.inj ho
    rfl
  | probs wires => intro o ho; cases ho
  | state => intro o ho; cases ho
  | withReadout readout _ ih => exact ih

def Observable.Sized : Observable Float → Prop
  | .word _ => True
  | .hamiltonian h => h.terms.length < 2 ^ 64

def Shots.Sized : Shots → Prop
  | .analytic => True
  | .finite n => n < 2 ^ 64
  | .vector batches =>
    batches.length < 2 ^ 64 ∧ ∀ b ∈ batches, b.shots < 2 ^ 64 ∧ b.repetitions < 2 ^ 64

/-- All sizes are 64-bit words, and measurements are as they are built. -/
structure Trace.Sized (t : Trace Float) : Prop where
  register     : t.register < 2 ^ 64
  operations   : t.operations.length < 2 ^ 64
  params       : ∀ op ∈ t.operations, op.params.length < 2 ^ 64
  measurements : t.measurements.length < 2 ^ 64
  built        : ∀ m ∈ t.measurements, m.Built
  wires        : ∀ m ∈ t.measurements, m.wires.length < 2 ^ 64
  terms        : ∀ m ∈ t.measurements, ∀ o, m.observable = some o → o.Sized
  shots        : t.shots.Sized

/-! ## Views

    The same with other numbers in the place of the coefficients and of the
    parameters' values, such as the bits of a float. -/

section Views

variable {α δ : Type} (view : α → δ)

def Observable.viewed : Observable α → Observable δ
  | .word w => .word w
  | .hamiltonian h => .hamiltonian ⟨h.terms.map fun (c, w) => (view c, w)⟩

def Measurement.viewed (m : Measurement α) : Measurement δ :=
  ⟨m.readout, m.observable.map (Observable.viewed view), m.wires⟩

/-- Name, wires and views of the parameters. -/
def Operation.viewed (op : Operation α) : String × List Nat × List δ :=
  (op.name, op.wires, op.params.map fun p => view p.value)

theorem Observable.bits_eq_viewed : Observable.bits = Observable.viewed Float.toBits := by
  funext o
  cases o <;> rfl

theorem Measurement.bits_eq_viewed : Measurement.bits = Measurement.viewed Float.toBits := by
  funext m
  unfold Measurement.bits Measurement.viewed
  rw [Observable.bits_eq_viewed]

end Views

namespace Proofs

/-! ## Reading the fields back -/

/-- In a key bytes are told apart, and numbers up to a view. -/
structure Legible {α δ : Type} [Representation α] (view : α → δ) : Prop where
  bytes   : Function.Injective (byte : UInt8 → Code α)
  numbers : Decodes (number : α → List (Code α)) (fun _ => True) view

/-- A float is read back up to its bits. -/
theorem legible_toBits : Legible Float.toBits where
  bytes := Function.injective_id
  numbers := by
    intro x y _ _ r s h
    obtain ⟨hbits, hrest⟩ :=
      decodes_wordBytes _ _ x.toBits.toNat_lt y.toBits.toNat_lt r s h
    exact ⟨UInt64.toNat_inj.mp hbits, hrest⟩

/-- What an operation needs for its fields to be read back. -/
def OperationFits {α : Type} (op : Operation α) : Prop :=
  (∀ w ∈ op.wires, w < 2 ^ 64) ∧ op.params.length < 2 ^ 64

/-- What an observable needs for its fields to be read back. -/
def ObservableFits {α : Type} (o : Observable α) : Prop :=
  (∀ h, o = .hamiltonian h → h.terms.length < 2 ^ 64) ∧
    ∀ w ∈ o.words, ∀ f ∈ w.factors, f.1 < 2 ^ 64 - 1

/-- What a measurement needs for its fields to be read back. -/
def MeasurementFits {α : Type} (m : Measurement α) : Prop :=
  m.wires.length < 2 ^ 64 ∧ (∀ w ∈ m.wires, w < 2 ^ 64) ∧
    ∀ o, m.observable = some o → ObservableFits o

/-- What a trace needs for its fields to be read back. -/
structure TraceFits {α : Type} (t : Trace α) : Prop where
  register     : t.register < 2 ^ 64
  count        : t.operations.length < 2 ^ 64
  operations   : ∀ op ∈ t.operations, OperationFits op
  size         : t.measurements.length < 2 ^ 64
  measurements : ∀ m ∈ t.measurements, MeasurementFits m
  shots        : t.shots.Sized

theorem pauliIndex_injective {p q : Pauli} (h : p.index = q.index) : p = q := by
  cases p <;> cases q <;> first | rfl | cases h

theorem readoutIndex_injective {p q : Readout} (h : p.index = q.index) : p = q := by
  cases p <;> cases q <;> first | rfl | cases h

namespace Legible

variable {α δ : Type} [Representation α] {view : α → δ}

/-- The code of a size is the eight bytes of a word. -/
theorem decodes_word (hview : Legible view) :
    Decodes (word : Nat → List (Code α)) (· < 2 ^ 64) id :=
  decodes_of_length (fun n => (List.length_map _).trans (length_wordBytes n))
    fun _ _ hm hn h => wordBytes_injective hm hn (List.map_injective_iff.mpr hview.bytes h)

theorem decodes_label (hview : Legible view) :
    Decodes (label : String → List (Code α)) (fun _ => True) id := by
  -- Bytes are items of length one, and 255 starts none that a text holds.
  have hbyte : Decodes (fun b : UInt8 => [byte b]) (· ≠ 255) id (γ := Code α) :=
    decodes_of_length (n := 1) (fun _ => rfl) fun a b _ _ h =>
      hview.bytes (List.singleton_injective h)
  have hmark : ∀ b : UInt8, b ≠ 255 → ∀ r s : List (Code α), [byte 255] ++ r ≠ [byte b] ++ s :=
    fun b hb r s h => hb (hview.bytes (List.cons.inj h).1).symm
  have hclosed := hbyte.closed hmark
  intro a b _ _ r s h
  obtain ⟨hbytes, hrest⟩ := hclosed a.toUTF8.toList b.toUTF8.toList
    (ne_255_of_mem_toUTF8 a) (ne_255_of_mem_toUTF8 b) r s
    (by simpa [label, List.map_eq_flatMap] using h)
  exact ⟨toUTF8_toList_injective (by simpa using hbytes), hrest⟩

/-- Wires, written without their number, are read back if the number is known. -/
theorem decode_wires (hview : Legible view) {v w : List Nat} (hlen : v.length = w.length)
    (hv : ∀ x ∈ v, x < 2 ^ 64) (hw : ∀ x ∈ w, x < 2 ^ 64) {r s : List (Code α)}
    (h : v.flatMap word ++ r = w.flatMap word ++ s) : v = w ∧ r = s := by
  have := hview.decodes_word.flatMap hlen hv hw h
  simpa using this

/-- Two operations that start one sequence have one name, and if their wires
    are equally many then they have the same content. -/
theorem decode_operation (hview : Legible view) {a b : Operation α} (ha : OperationFits a)
    (hb : OperationFits b) (hwires : a.name = b.name → a.wires.length = b.wires.length)
    {r s : List (Code α)}
    (h : Fingerprint.ofOperation a ++ r = Fingerprint.ofOperation b ++ s) :
    a.viewed view = b.viewed view ∧ r = s := by
  simp only [Fingerprint.ofOperation, List.append_assoc] at h
  obtain ⟨hname, h⟩ := hview.decodes_label a.name b.name trivial trivial _ _ h
  -- The wires carry no count of their own; only here the hypothesis is used.
  obtain ⟨hw, h⟩ := hview.decode_wires (hwires hname) ha.1 hb.1 h
  obtain ⟨hcount, h⟩ := hview.decodes_word _ _ ha.2 hb.2 _ _ h
  have hparam : Decodes (fun p : Jet α => number p.value) (fun _ => True)
      (fun p => view p.value) := fun p q _ _ => hview.numbers p.value q.value trivial trivial
  obtain ⟨hparams, h⟩ := hparam.flatMap hcount (fun _ _ => trivial) (fun _ _ => trivial) h
  exact ⟨by simp [Operation.viewed, hw, hparams, show a.name = b.name from hname], h⟩

/-- A word is closed by the largest 64-bit word, which is no wire. -/
theorem decodes_pauliWord (hview : Legible view) :
    Decodes (Fingerprint.ofPauliWord : PauliWord → List (Code α))
      (fun w => ∀ f ∈ w.factors, f.1 < 2 ^ 64 - 1) id := by
  have hfactor : Decodes (fun f : PauliFactor => (word f.1 ++ word f.2.index : List (Code α)))
      (fun f => f.1 < 2 ^ 64 - 1) id := by
    intro f g hf hg r s h
    simp only [List.append_assoc] at h
    obtain ⟨hwire, h⟩ := hview.decodes_word f.1 g.1 (by omega) (by omega) _ _ h
    have hsmall : ∀ p : Pauli, p.index < 2 ^ 64 := fun p => by cases p <;> decide
    obtain ⟨hindex, h⟩ := hview.decodes_word _ _ (hsmall f.2) (hsmall g.2) _ _ h
    exact ⟨Prod.ext hwire (pauliIndex_injective hindex), h⟩
  have hmark : ∀ f : PauliFactor, f.1 < 2 ^ 64 - 1 → ∀ r s : List (Code α),
      word (2 ^ 64 - 1) ++ r ≠ word f.1 ++ word f.2.index ++ s := by
    intro f hf r s h
    rw [List.append_assoc] at h
    have := (hview.decodes_word (2 ^ 64 - 1) f.1 (by omega) (by omega) _ _ h).1
    simp only [id] at this
    omega
  intro v w hv hw r s h
  obtain ⟨hfactors, hrest⟩ := hfactor.closed hmark v.factors w.factors hv hw r s h
  refine ⟨?_, hrest⟩
  cases v
  cases w
  simpa using hfactors

theorem decodes_observable (hview : Legible view) :
    Decodes (Fingerprint.ofObservable : Option (Observable α) → List (Code α))
      (fun o => ∀ p, o = some p → ObservableFits p) (fun o => o.map (Observable.viewed view)) := by
  have hterm : Decodes (fun (t : α × PauliWord) => number t.1 ++ Fingerprint.ofPauliWord t.2)
      (fun t => ∀ f ∈ t.2.factors, f.1 < 2 ^ 64 - 1) (fun t => (view t.1, t.2)) := by
    intro t u ht hu r s h
    simp only [List.append_assoc] at h
    obtain ⟨hnumber, h⟩ := hview.numbers t.1 u.1 trivial trivial _ _ h
    obtain ⟨hword, h⟩ := hview.decodes_pauliWord t.2 u.2 ht hu _ _ h
    exact ⟨Prod.ext hnumber hword, h⟩
  intro o p ho hp r s h
  -- the first byte tells the three kinds of observables apart
  match o, p with
  | none, none => exact ⟨rfl, by simpa [Fingerprint.ofObservable] using h⟩
  | some (.word v), some (.word w) =>
    simp only [Fingerprint.ofObservable, List.cons_append, List.cons.injEq, true_and] at h
    obtain ⟨hword, hrest⟩ := hview.decodes_pauliWord v w
      ((ho _ rfl).2 v (by simp [Observable.words]))
      ((hp _ rfl).2 w (by simp [Observable.words])) r s h
    exact ⟨by simp [Observable.viewed, show v = w from hword], hrest⟩
  | some (.hamiltonian g), some (.hamiltonian k) =>
    simp only [Fingerprint.ofObservable, List.cons_append, List.cons.injEq, true_and,
      List.append_assoc] at h
    obtain ⟨hcount, h⟩ := hview.decodes_word _ _ ((ho _ rfl).1 g rfl) ((hp _ rfl).1 k rfl) _ _ h
    obtain ⟨hterms, hrest⟩ := hterm.flatMap hcount
      (fun t ht => (ho _ rfl).2 t.2 (List.mem_map_of_mem ht))
      (fun t ht => (hp _ rfl).2 t.2 (List.mem_map_of_mem ht)) h
    exact ⟨by simpa [Observable.viewed] using hterms, hrest⟩
  | none, some (.word _) | none, some (.hamiltonian _) | some (.word _), none
  | some (.hamiltonian _), none | some (.word _), some (.hamiltonian _)
  | some (.hamiltonian _), some (.word _) =>
    simp only [Fingerprint.ofObservable, List.cons_append, List.cons.injEq] at h
    exact absurd (hview.bytes h.1) (by decide)

theorem decodes_measurement (hview : Legible view) :
    Decodes (Fingerprint.ofMeasurement : Measurement α → List (Code α))
      MeasurementFits (Measurement.viewed view) := by
  intro m n hm hn r s h
  simp only [Fingerprint.ofMeasurement, List.append_assoc] at h
  have hsmall : ∀ r : Readout, r.index < 2 ^ 64 := fun r => by cases r <;> decide
  obtain ⟨hreadout, h⟩ := hview.decodes_word _ _ (hsmall m.readout) (hsmall n.readout) _ _ h
  obtain ⟨hcount, h⟩ := hview.decodes_word _ _ hm.1 hn.1 _ _ h
  obtain ⟨hwires, h⟩ := hview.decode_wires hcount hm.2.1 hn.2.1 h
  obtain ⟨hobservable, hrest⟩ := hview.decodes_observable _ _ hm.2.2 hn.2.2 _ _ h
  exact ⟨by simp [Measurement.viewed, hobservable, hwires, readoutIndex_injective hreadout], hrest⟩

theorem decodes_shots (hview : Legible view) :
    Decodes (Fingerprint.ofShots : Shots → List (Code α)) Shots.Sized id := by
  have hbatch : Decodes
      (fun b : ShotBatch => (word b.shots ++ word b.repetitions : List (Code α)))
      (fun b => b.shots < 2 ^ 64 ∧ b.repetitions < 2 ^ 64) id := by
    intro a b ha hb r s h
    simp only [List.append_assoc] at h
    obtain ⟨hshots, h⟩ := hview.decodes_word _ _ ha.1 hb.1 _ _ h
    obtain ⟨hrepetitions, h⟩ := hview.decodes_word _ _ ha.2 hb.2 _ _ h
    cases a
    cases b
    simp_all
  intro a b ha hb r s h
  -- the first word tells the three kinds of shots apart
  match a, b with
  | .analytic, .analytic => exact ⟨rfl, by simpa [Fingerprint.ofShots] using h⟩
  | .finite m, .finite n =>
    simp only [Fingerprint.ofShots, List.append_assoc, List.append_cancel_left_eq] at h
    obtain ⟨hcount, hrest⟩ := hview.decodes_word m n ha hb _ _ h
    exact ⟨by simp [show m = n from hcount], hrest⟩
  | .vector v, .vector w =>
    simp only [Fingerprint.ofShots, List.append_assoc, List.append_cancel_left_eq] at h
    obtain ⟨hcount, h⟩ := hview.decodes_word _ _ ha.1 hb.1 _ _ h
    obtain ⟨hbatches, hrest⟩ := hbatch.flatMap hcount ha.2 hb.2 h
    exact ⟨by simpa using hbatches, hrest⟩
  | .analytic, .finite _ | .analytic, .vector _ | .finite _, .analytic
  | .finite _, .vector _ | .vector _, .analytic | .vector _, .finite _ =>
    simp only [Fingerprint.ofShots, List.append_assoc] at h
    exact absurd (hview.decodes_word _ _ (by decide) (by decide) _ _ h).1 (by decide)

/-- Equal fingerprints give equal views, as long as operations of one name at
    one place have equally many wires. -/
theorem viewed_eq_of_fingerprint_eq (hview : Legible view) {t u : Trace α} (ht : TraceFits t)
    (hu : TraceFits u) (heq : t.fingerprint = u.fingerprint)
    (hwires : ∀ p ∈ t.operations.zip u.operations,
      p.1.name = p.2.name → p.1.wires.length = p.2.wires.length) :
    t.register = u.register ∧
      t.operations.map (Operation.viewed view) = u.operations.map (Operation.viewed view) ∧
      t.measurements.map (Measurement.viewed view) = u.measurements.map (Measurement.viewed view) ∧
      t.shots = u.shots := by
  have h := congrArg Fingerprint.codes heq
  simp only [Trace.fingerprint, List.append_assoc] at h
  -- The fields are read in the order in which they are written.
  obtain ⟨hregister, h⟩ := hview.decodes_word _ _ ht.register hu.register _ _ h
  obtain ⟨hcount, h⟩ := hview.decodes_word _ _ ht.count hu.count _ _ h
  obtain ⟨hoperations, h⟩ := decode_flatMap_of_zip t.operations u.operations hcount
    (fun p hp r s hps => by
      have hmem := List.of_mem_zip (show (p.1, p.2) ∈ t.operations.zip u.operations from hp)
      exact hview.decode_operation (ht.operations _ hmem.1) (hu.operations _ hmem.2)
        (hwires p hp) hps) _ _ h
  obtain ⟨hcount, h⟩ := hview.decodes_word _ _ ht.size hu.size _ _ h
  obtain ⟨hmeasurements, h⟩ :=
    hview.decodes_measurement.flatMap hcount ht.measurements hu.measurements h
  obtain ⟨hshots, -⟩ :=
    hview.decodes_shots t.shots u.shots ht.shots hu.shots [] [] (by simpa using h)
  exact ⟨hregister, hoperations, hmeasurements, hshots⟩

end Legible

/-! ## Traces that can be made -/

/-- The fields of a valid trace of 64-bit sizes can be read back. -/
theorem measurementFits_of_sized {t : Trace Float} (hsized : t.Sized) (hvalid : t.Valid) :
    ∀ m ∈ t.measurements, MeasurementFits m := by
  intro m hm
  have hregister := hsized.register
  refine ⟨hsized.wires m hm, ?_, ?_⟩
  · intro w hw
    have := hvalid.measurements m hm w hw
    omega
  · intro o ho
    refine ⟨?_, ?_⟩
    · rintro h rfl
      exact hsized.terms m hm _ ho
    · intro w hw f hf
      -- The wires of a word are wires of its measurement, and those are checked.
      have hwire : f.1 ∈ m.wires := by
        rw [(hsized.built m hm).wires_eq o ho]
        exact mem_wires_of_word hw (List.mem_map_of_mem hf)
      have := hvalid.measurements m hm f.1 hwire
      omega

theorem operationFits_of_sized {t : Trace Float} (hsized : t.Sized) (hvalid : t.Valid) :
    ∀ op ∈ t.operations, OperationFits op := by
  intro op hop
  have hregister := hsized.register
  refine ⟨?_, hsized.params op hop⟩
  intro w hw
  have := hvalid.operations op hop w hw
  omega

theorem traceFits_of_sized {t : Trace Float} (hsized : t.Sized) (hvalid : t.Valid) :
    TraceFits t where
  register := hsized.register
  count := hsized.operations
  operations := operationFits_of_sized hsized hvalid
  size := hsized.measurements
  measurements := measurementFits_of_sized hsized hvalid
  shots := hsized.shots

/-- Equal fingerprints give equal contents, as long as operations of one name
    at one place have equally many wires. -/
theorem content_eq_of_fingerprint_eq {t u : Trace Float} (ht : t.Valid) (hu : u.Valid)
    (hts : t.Sized) (hus : u.Sized) (heq : t.fingerprint = u.fingerprint)
    (hwires : ∀ p ∈ t.operations.zip u.operations,
      p.1.name = p.2.name → p.1.wires.length = p.2.wires.length) :
    t.content = u.content := by
  obtain ⟨hregister, hoperations, hmeasurements, hshots⟩ :=
    legible_toBits.viewed_eq_of_fingerprint_eq (traceFits_of_sized hts ht)
      (traceFits_of_sized hus hu) heq hwires
  rw [← Measurement.bits_eq_viewed] at hmeasurements
  simp only [Trace.content, TraceContent.mk.injEq]
  exact ⟨hregister, hoperations, hmeasurements, hshots⟩

/-! ## A fingerprint is a function of the content -/

theorem flatMap_eq_of_map_eq {β γ δ : Type} {code : β → List γ} {view : β → δ}
    (hcode : ∀ a b, view a = view b → code a = code b) :
    ∀ {xs ys : List β}, xs.map view = ys.map view → xs.flatMap code = ys.flatMap code := by
  intro xs
  induction xs with
  | nil =>
    intro ys h
    obtain rfl : ys = [] := by simpa using h.symm
    rfl
  | cons x xs ih =>
    intro ys h
    cases ys with
    | nil => simp at h
    | cons y ys =>
      simp only [List.map_cons, List.cons.injEq] at h
      rw [List.flatMap_cons, List.flatMap_cons, hcode x y h.1, ih h.2]

theorem number_eq_of_toBits_eq {x y : Float} (h : x.toBits = y.toBits) :
    (number x : List (Code Float)) = number y :=
  congrArg (fun b : UInt64 => wordBytes b.toNat) h

theorem ofOperation_eq_of_content_eq {a b : Operation Float} (h : a.content = b.content) :
    Fingerprint.ofOperation a = Fingerprint.ofOperation b := by
  simp only [Operation.content, Prod.mk.injEq] at h
  obtain ⟨hname, hwires, hparams⟩ := h
  have hcount : a.params.length = b.params.length := by
    simpa using congrArg List.length hparams
  have hnumber : ∀ p q : Jet Float, p.value.toBits = q.value.toBits →
      (number p.value : List (Code Float)) = number q.value := fun _ _ => number_eq_of_toBits_eq
  have hnumbers := flatMap_eq_of_map_eq hnumber hparams
  rw [Fingerprint.ofOperation, Fingerprint.ofOperation, hname, hwires, hcount, hnumbers]

theorem ofObservable_eq_of_bits_eq {o p : Option (Observable Float)}
    (h : o.map Observable.bits = p.map Observable.bits) :
    (Fingerprint.ofObservable o : List (Code Float)) = Fingerprint.ofObservable p := by
  match o, p with
  | none, none => rfl
  | some (.word v), some (.word w) =>
    obtain rfl : v = w := by simpa [Observable.bits] using h
    rfl
  | some (.hamiltonian g), some (.hamiltonian k) =>
    have hterms : g.terms.map (fun t => (t.1.toBits, t.2)) =
        k.terms.map (fun t => (t.1.toBits, t.2)) := by simpa [Observable.bits] using h
    have hcount : g.terms.length = k.terms.length := by
      simpa using congrArg List.length hterms
    have hterm : ∀ t u : Float × PauliWord, (t.1.toBits, t.2) = (u.1.toBits, u.2) →
        (number t.1 ++ Fingerprint.ofPauliWord t.2 : List (Code Float)) =
          number u.1 ++ Fingerprint.ofPauliWord u.2 := by
      intro t u htu
      simp only [Prod.mk.injEq] at htu
      rw [number_eq_of_toBits_eq htu.1, htu.2]
    have hcodes := flatMap_eq_of_map_eq hterm hterms
    simp only [Fingerprint.ofObservable, hcount]
    rw [hcodes]
  | none, some _ | some _, none => simp at h
  | some (.word _), some (.hamiltonian _) | some (.hamiltonian _), some (.word _) =>
    simp [Observable.bits] at h

theorem ofMeasurement_eq_of_bits_eq {m n : Measurement Float} (h : m.bits = n.bits) :
    Fingerprint.ofMeasurement m = Fingerprint.ofMeasurement n := by
  simp only [Measurement.bits, Measurement.mk.injEq] at h
  rw [Fingerprint.ofMeasurement, Fingerprint.ofMeasurement, h.1, h.2.2,
    ofObservable_eq_of_bits_eq h.2.1]

theorem fingerprint_eq_of_content_eq {t u : Trace Float} (h : t.content = u.content) :
    t.fingerprint = u.fingerprint := by
  simp only [Trace.content, TraceContent.mk.injEq] at h
  obtain ⟨hregister, hoperations, hmeasurements, hshots⟩ := h
  have hopcount : t.operations.length = u.operations.length := by
    simpa using congrArg List.length hoperations
  have hmcount : t.measurements.length = u.measurements.length := by
    simpa using congrArg List.length hmeasurements
  rw [Trace.fingerprint, Trace.fingerprint, hregister, hshots, hopcount, hmcount,
    flatMap_eq_of_map_eq (fun _ _ => ofOperation_eq_of_content_eq) hoperations,
    flatMap_eq_of_map_eq (fun _ _ => ofMeasurement_eq_of_bits_eq) hmeasurements]

/-- Operations of equal content have equally many wires. -/
theorem wires_length_eq_of_content_eq {t u : Trace Float} (h : t.content = u.content) :
    ∀ p ∈ t.operations.zip u.operations, p.1.wires.length = p.2.wires.length := by
  intro p hp
  have hops := congrArg TraceContent.operations h
  simp only [Trace.content] at hops
  obtain ⟨i, hi, rfl⟩ := List.getElem_of_mem hp
  have hi' : i < t.operations.length ∧ i < u.operations.length := by
    rw [List.length_zip] at hi
    omega
  have hget := congrArg (fun xs => (xs[i]?).map fun c => c.2.1.length) hops
  simpa [Operation.content, hi'.1, hi'.2] using hget

/-- **What a fingerprint tells.**  Two traces have the same content, and so
    are the same computation, exactly when their fingerprints are equal and
    operations of one name at one place have equally many wires. -/
theorem content_eq_iff {n k : Nat} {ops ops' : List (Operation Float)}
    {ms ms' : List (Measurement Float)} {t u : Trace Float} (shots shots' : Shots)
    (ht : Trace.make n ops ms = .ok t) (hu : Trace.make k ops' ms' = .ok u)
    (hts : (t.withShots shots).Sized) (hus : (u.withShots shots').Sized) :
    (t.withShots shots).content = (u.withShots shots').content ↔
      (t.withShots shots).fingerprint = (u.withShots shots').fingerprint ∧
      ∀ p ∈ t.operations.zip u.operations,
        p.1.name = p.2.name → p.1.wires.length = p.2.wires.length := by
  obtain ⟨-, -, htv⟩ := make_eq_ok_iff.mp ht
  obtain ⟨-, -, huv⟩ := make_eq_ok_iff.mp hu
  constructor
  · intro h
    exact ⟨fingerprint_eq_of_content_eq h, fun p hp _ => wires_length_eq_of_content_eq h p hp⟩
  · rintro ⟨heq, hwires⟩
    exact content_eq_of_fingerprint_eq ⟨htv.measured, htv.operations, htv.measurements⟩
      ⟨huv.measured, huv.operations, huv.measurements⟩ hts hus heq hwires

/-! ## A collision -/

/-- A gate with one parameter on any number of wires. -/
def spreading : GateSpec Float := { name := "G", wireCount := 0 }

/-- `G` on two wires; its parameter has the bits 2. -/
def onTwoWires : Trace Float :=
  ⟨[⟨spreading, [.constant (Float.ofBits 2)], [0, 1]⟩], [.probs [0], .probs [0]], 2,
    .analytic, .empty⟩

/-- `G` on one wire; its parameter has the bits 1. -/
def onOneWire : Trace Float :=
  ⟨[⟨spreading, [.constant (Float.ofBits 1)], [0]⟩], [.probs [1, 0], .probs [0]], 2,
    .analytic, .empty⟩

theorem sized_onTwoWires : onTwoWires.Sized where
  register := by decide
  operations := by decide
  params := by decide
  measurements := by decide
  built := by
    intro m hm
    obtain rfl : m = .probs [0] := by simpa [onTwoWires] using hm
    exact .probs _
  wires := by decide
  terms := by
    intro m hm o ho
    obtain rfl : m = .probs [0] := by simpa [onTwoWires] using hm
    cases ho
  shots := trivial

theorem sized_onOneWire : onOneWire.Sized where
  register := by decide
  operations := by decide
  params := by decide
  measurements := by decide
  built := by
    intro m hm
    obtain rfl | rfl : m = .probs [1, 0] ∨ m = .probs [0] := by simpa [onOneWire] using hm
    · exact .probs _
    · exact .probs _
  wires := by decide
  terms := by
    intro m hm o ho
    obtain rfl | rfl : m = .probs [1, 0] ∨ m = .probs [0] := by simpa [onOneWire] using hm
    · cases ho
    · cases ho
  shots := trivial

/-- **A collision.**  Two traces that can be made, of different content, with
    one fingerprint: the second wire of the first is read as the number of
    parameters of the second, and so on up to its first measured wire. -/
theorem fingerprint_collision :
    Operation.make spreading [.constant (Float.ofBits 2)] [0, 1]
        = .ok ⟨spreading, [.constant (Float.ofBits 2)], [0, 1]⟩ ∧
    Operation.make spreading [.constant (Float.ofBits 1)] [0]
        = .ok ⟨spreading, [.constant (Float.ofBits 1)], [0]⟩ ∧
    Trace.make 2 onTwoWires.operations onTwoWires.measurements = .ok onTwoWires ∧
    Trace.make 2 onOneWire.operations onOneWire.measurements = .ok onOneWire ∧
    onTwoWires.Sized ∧ onOneWire.Sized ∧
    onTwoWires.fingerprint = onOneWire.fingerprint ∧
    onTwoWires.content ≠ onOneWire.content := by
  refine ⟨rfl, rfl, rfl, rfl, sized_onTwoWires, sized_onOneWire, by decide +kernel, ?_⟩
  intro h
  -- The contents differ in how many wires `G` has.
  have := wires_length_eq_of_content_eq h (⟨spreading, [.constant (Float.ofBits 2)], [0, 1]⟩,
    ⟨spreading, [.constant (Float.ofBits 1)], [0]⟩) (by simp [onTwoWires, onOneWire])
  simp at this

/-- The criterion at the two traces: of its right-hand side the fingerprints
    hold, and the numbers of wires do not. -/
theorem content_eq_iff_onTwoWires :
    Trace.make 2 onTwoWires.operations onTwoWires.measurements = .ok onTwoWires ∧
    Trace.make 2 onOneWire.operations onOneWire.measurements = .ok onOneWire ∧
    (onTwoWires.withShots (.finite 5)).Sized ∧ (onOneWire.withShots (.finite 5)).Sized ∧
    ((onTwoWires.withShots (.finite 5)).content = (onOneWire.withShots (.finite 5)).content ↔
      (onTwoWires.withShots (.finite 5)).fingerprint =
        (onOneWire.withShots (.finite 5)).fingerprint ∧
      ∀ p ∈ onTwoWires.operations.zip onOneWire.operations,
        p.1.name = p.2.name → p.1.wires.length = p.2.wires.length) := by
  have hfive : (Shots.finite 5).Sized := show 5 < 2 ^ 64 by decide
  have hl : (onTwoWires.withShots (.finite 5)).Sized := { sized_onTwoWires with shots := hfive }
  have hr : (onOneWire.withShots (.finite 5)).Sized := { sized_onOneWire with shots := hfive }
  have hml : Trace.make 2 onTwoWires.operations onTwoWires.measurements = .ok onTwoWires := rfl
  have hmr : Trace.make 2 onOneWire.operations onOneWire.measurements = .ok onOneWire := rfl
  exact ⟨hml, hmr, hl, hr, content_eq_iff (.finite 5) (.finite 5) hml hmr hl hr⟩

end Proofs

end CircuitGrad
