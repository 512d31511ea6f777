import JvmLift.Proofs.Pool.Builder
import Mathlib.Data.List.Forall2

namespace JvmLift

namespace PoolBuilder

-- A call of a builder, with what it is given.
inductive Call where
  | utf8 (text : String)
  | integer (value : Int32)
  | float (value : Decimal.Float32Bits)
  | long (value : Int64)
  | double (value : Decimal.Float64Bits)
  | string (text : String)
  | classRef (name : String)
  | nameAndType (name descriptor : String)
  | fieldRef (owner name descriptor : String)
  | methodRef (owner name descriptor : String)
  | interfaceMethodRef (owner name descriptor : String)
  | methodHandle (kind : HandleKind) (reference : UInt16)
  | methodType (descriptor : String)
  | invokeDynamic (bootstrap : UInt16) (name descriptor : String)
deriving DecidableEq

namespace Call

def run : Call → PoolBuilder UInt16
  | utf8 text => PoolBuilder.utf8 text
  | integer value => PoolBuilder.integer value
  | float value => PoolBuilder.float value
  | long value => PoolBuilder.long value
  | double value => PoolBuilder.double value
  | string text => PoolBuilder.string text
  | classRef name => PoolBuilder.classRef name
  | nameAndType name descriptor => PoolBuilder.nameAndType name descriptor
  | fieldRef owner name descriptor => PoolBuilder.fieldRef owner name descriptor
  | methodRef owner name descriptor => PoolBuilder.methodRef owner name descriptor
  | interfaceMethodRef owner name descriptor =>
    PoolBuilder.interfaceMethodRef owner name descriptor
  | methodHandle kind reference => PoolBuilder.methodHandle kind reference
  | methodType descriptor => PoolBuilder.methodType descriptor
  | invokeDynamic bootstrap name descriptor =>
    PoolBuilder.invokeDynamic bootstrap name descriptor

-- The calls that give an entry a second time if the pool has it.
def isShared : Call → Bool
  | utf8 _ | classRef _ | nameAndType _ _ => true
  | _ => false

-- The member that a method handle of the given kind can refer to.
def member? (kind : HandleKind) : Call → Option MemberRef
  | fieldRef owner name descriptor =>
    if kind.isField then some ⟨owner, name, descriptor, false⟩ else none
  | methodRef owner name descriptor =>
    if kind.isField then none else some ⟨owner, name, descriptor, false⟩
  | interfaceMethodRef owner name descriptor =>
    if kind.isField then none else some ⟨owner, name, descriptor, true⟩
  | _ => none

-- Whether the lookup for a call gives back what the call was given. The answers are those of all
-- calls: a method handle refers to one of them.
def Resolves (call : Call) (answers : List (Call × UInt16)) (p : Pool) (i : UInt16) : Prop :=
  match call with
  | utf8 text => p.utf8 i = .ok text
  | integer value => p.loadable i = .ok (.int value)
  | float value => p.loadable i = .ok (.float value)
  | long value => p.loadable i = .ok (.long value)
  | double value => p.loadable i = .ok (.double value)
  | string text => p.loadable i = .ok (.string text)
  | classRef name => p.className i = .ok name ∧ p.loadable i = .ok (.classRef name)
  | nameAndType name descriptor => p.nameAndType i = .ok (name, descriptor)
  | fieldRef owner name descriptor => p.fieldRef i = .ok ⟨owner, name, descriptor, false⟩
  | methodRef owner name descriptor => p.methodRef i = .ok ⟨owner, name, descriptor, false⟩
  | interfaceMethodRef owner name descriptor =>
    p.methodRef i = .ok ⟨owner, name, descriptor, true⟩
  | methodHandle kind reference => ∀ other member, (other, reference) ∈ answers →
    other.member? kind = some member → p.methodHandle i = .ok ⟨kind, member⟩
  | methodType descriptor => p.methodType i = .ok descriptor
  | invokeDynamic bootstrap name descriptor =>
    p.invokeDynamic i = .ok ⟨bootstrap, name, descriptor⟩

-- Whether a pool has at an index the entry of a call, and further up what the entry refers to.
def Stored (call : Call) (p : Pool) (i : UInt16) : Prop :=
  match call with
  | utf8 text => p.First (.utf8 text) i
  | integer value => p.get i = .ok (.integer value)
  | float value => p.get i = .ok (.float value)
  | long value => p.get i = .ok (.long value)
  | double value => p.get i = .ok (.double value)
  | string text => ∃ t, p.First (.utf8 text) t ∧ p.get i = .ok (.string t)
  | classRef name => p.NamesClass name i
  | nameAndType name descriptor => p.NamesSignature name descriptor i
  | fieldRef owner name descriptor => ∃ c, p.NamesClass owner c ∧
    ∃ t, p.NamesSignature name descriptor t ∧ p.get i = .ok (.fieldRef c t)
  | methodRef owner name descriptor => ∃ c, p.NamesClass owner c ∧
    ∃ t, p.NamesSignature name descriptor t ∧ p.get i = .ok (.methodRef c t)
  | interfaceMethodRef owner name descriptor => ∃ c, p.NamesClass owner c ∧
    ∃ t, p.NamesSignature name descriptor t ∧ p.get i = .ok (.interfaceMethodRef c t)
  | methodHandle kind reference => p.get i = .ok (.methodHandle kind.tag reference)
  | methodType descriptor =>
    ∃ t, p.First (.utf8 descriptor) t ∧ p.get i = .ok (.methodType t)
  | invokeDynamic bootstrap name descriptor =>
    ∃ t, p.NamesSignature name descriptor t ∧ p.get i = .ok (.invokeDynamic bootstrap t)

theorem adds_run (call : Call) : Adds call.run call.Stored := by
  cases call with
  | utf8 text => exact adds_share _
  | integer value => exact adds_push _
  | float value => exact adds_push _
  | long value => exact adds_push _
  | double value => exact adds_push _
  | string text => exact (adds_share _).bind fun _ => adds_push _
  | classRef name => exact adds_classRef name
  | nameAndType name descriptor => exact adds_nameAndType name descriptor
  | fieldRef owner name descriptor => exact adds_member owner name descriptor .fieldRef
  | methodRef owner name descriptor => exact adds_member owner name descriptor .methodRef
  | interfaceMethodRef owner name descriptor =>
    exact adds_member owner name descriptor .interfaceMethodRef
  | methodHandle kind reference => exact adds_push _
  | methodType descriptor => exact (adds_share _).bind fun _ => adds_push _
  | invokeDynamic bootstrap name descriptor =>
    exact (adds_nameAndType name descriptor).bind fun _ => adds_push _

-- Reads the call that has added an entry back from it.
def readBack? (p : Pool) : PoolEntry → Option Call
  | .utf8 text => some (utf8 text)
  | .integer value => some (integer value)
  | .float value => some (float value)
  | .long value => some (long value)
  | .double value => some (double value)
  | .string text => (p.utf8 text).toOption.map string
  | .classRef name => (p.utf8 name).toOption.map classRef
  | .nameAndType name descriptor => do
    return nameAndType (← (p.utf8 name).toOption) (← (p.utf8 descriptor).toOption)
  | .fieldRef owner signature =>
    (p.member owner signature false).toOption.map fun m => fieldRef m.owner m.name m.descriptor
  | .methodRef owner signature =>
    (p.member owner signature false).toOption.map fun m => methodRef m.owner m.name m.descriptor
  | .interfaceMethodRef owner signature =>
    (p.member owner signature true).toOption.map fun m =>
      interfaceMethodRef m.owner m.name m.descriptor
  | .methodHandle tag reference => (HandleKind.ofTag? tag).map (methodHandle · reference)
  | .methodType descriptor => (p.utf8 descriptor).toOption.map methodType
  | .invokeDynamic bootstrap signature =>
    (p.nameAndType signature).toOption.map fun s => invokeDynamic bootstrap s.1 s.2
  | .dynamic _ _ | .moduleRef _ | .packageRef _ | .unusable => none

namespace Stored

variable {call other : Call} {p : Pool} {i j : UInt16}

theorem readBack?_eq_some (h : call.Stored p i) :
    ∃ e, p.get i = .ok e ∧ readBack? p e = some call := by
  cases call with
  | utf8 text => exact ⟨_, h.get, rfl⟩
  | integer value => exact ⟨_, h, rfl⟩
  | float value => exact ⟨_, h, rfl⟩
  | long value => exact ⟨_, h, rfl⟩
  | double value => exact ⟨_, h, rfl⟩
  | string text =>
    obtain ⟨t, ht, hi⟩ := h
    exact ⟨_, hi, by simp [readBack?, Pool.utf8_of_get ht.get, Except.toOption]⟩
  | classRef name =>
    obtain ⟨t, ht, hi⟩ := h
    exact ⟨_, hi.get, by simp [readBack?, Pool.utf8_of_get ht.get, Except.toOption]⟩
  | nameAndType name descriptor =>
    obtain ⟨t, ht, u, hu, hi⟩ := h
    refine ⟨_, hi.get, ?_⟩
    simp [readBack?, Pool.utf8_of_get ht.get, Pool.utf8_of_get hu.get, Except.toOption]
  | fieldRef owner name descriptor =>
    obtain ⟨c, hc, t, ht, hi⟩ := h
    exact ⟨_, hi, by simp [readBack?, Pool.member_of_names hc ht, Except.toOption]⟩
  | methodRef owner name descriptor =>
    obtain ⟨c, hc, t, ht, hi⟩ := h
    exact ⟨_, hi, by simp [readBack?, Pool.member_of_names hc ht, Except.toOption]⟩
  | interfaceMethodRef owner name descriptor =>
    obtain ⟨c, hc, t, ht, hi⟩ := h
    exact ⟨_, hi, by simp [readBack?, Pool.member_of_names hc ht, Except.toOption]⟩
  | methodHandle kind reference =>
    exact ⟨_, h, by simp [readBack?, HandleKind.ofTag?_tag]⟩
  | methodType descriptor =>
    obtain ⟨t, ht, hi⟩ := h
    exact ⟨_, hi, by simp [readBack?, Pool.utf8_of_get ht.get, Except.toOption]⟩
  | invokeDynamic bootstrap name descriptor =>
    obtain ⟨t, ht, hi⟩ := h
    exact ⟨_, hi, by simp [readBack?, ht.nameAndType, Except.toOption]⟩

-- An index has the entry of one call only.
theorem call_eq (h : call.Stored p i) (h' : other.Stored p i) : call = other := by
  obtain ⟨e, hget, hcall⟩ := h.readBack?_eq_some
  obtain ⟨e', hget', hother⟩ := h'.readBack?_eq_some
  obtain rfl : e = e' := Except.ok.inj (hget.symm.trans hget')
  exact Option.some.inj (hcall.symm.trans hother)

-- A shared call has its entry at one index only.
theorem index_eq (hshared : call.isShared) (h : call.Stored p i) (h' : call.Stored p j) :
    i = j := by
  cases call with
  | utf8 text => exact Pool.First.unique h h'
  | classRef name => exact Pool.NamesClass.unique h h'
  | nameAndType name descriptor => exact Pool.NamesSignature.unique h h'
  | _ => cases hshared

theorem not_isSecondSlot (hspaced : p.Spaced) (h : call.Stored p i) : ¬p.IsSecondSlot i := by
  intro hsecond
  obtain ⟨e, hget, hcall⟩ := h.readBack?_eq_some
  obtain rfl : PoolEntry.unusable = e :=
    Except.ok.inj ((hspaced.get_second hsecond).symm.trans hget)
  cases hcall

-- A stored member is what a handle of a kind that can refer to it finds.
theorem member (h : call.Stored p i) {kind : HandleKind} {m : MemberRef}
    (hm : call.member? kind = some m) :
    (if kind.isField then p.fieldRef i else p.methodRef i) = .ok m := by
  cases call with
  | fieldRef owner name descriptor =>
    obtain ⟨c, hc, t, ht, hi⟩ := h
    obtain ⟨hfield, hm⟩ := Option.ite_none_right_eq_some.1 hm
    rw [if_pos hfield, Pool.fieldRef_of_names hi hc ht, Option.some.inj hm]
  | methodRef owner name descriptor =>
    obtain ⟨c, hc, t, ht, hi⟩ := h
    obtain ⟨hmethod, hm⟩ := Option.ite_none_left_eq_some.1 hm
    rw [if_neg hmethod, Pool.methodRef_of_names hi hc ht, Option.some.inj hm]
  | interfaceMethodRef owner name descriptor =>
    obtain ⟨c, hc, t, ht, hi⟩ := h
    obtain ⟨hmethod, hm⟩ := Option.ite_none_left_eq_some.1 hm
    rw [if_neg hmethod, Pool.interfaceMethodRef_of_names hi hc ht, Option.some.inj hm]
  | _ => cases hm

theorem resolves {answers : List (Call × UInt16)}
    (hanswers : ∀ other index, (other, index) ∈ answers → other.Stored p index)
    (h : call.Stored p i) : call.Resolves answers p i := by
  cases call with
  | utf8 text => exact Pool.utf8_of_get h.get
  | integer value => exact Pool.loadable_of_number? h rfl
  | float value => exact Pool.loadable_of_number? h rfl
  | long value => exact Pool.loadable_of_number? h rfl
  | double value => exact Pool.loadable_of_number? h rfl
  | string text =>
    obtain ⟨t, ht, hi⟩ := h
    exact Pool.loadable_string hi ht.get
  | classRef name => exact ⟨Pool.NamesClass.className h, Pool.NamesClass.loadable h⟩
  | nameAndType name descriptor => exact Pool.NamesSignature.nameAndType h
  | fieldRef owner name descriptor =>
    obtain ⟨c, hc, t, ht, hi⟩ := h
    exact Pool.fieldRef_of_names hi hc ht
  | methodRef owner name descriptor =>
    obtain ⟨c, hc, t, ht, hi⟩ := h
    exact Pool.methodRef_of_names hi hc ht
  | interfaceMethodRef owner name descriptor =>
    obtain ⟨c, hc, t, ht, hi⟩ := h
    exact Pool.interfaceMethodRef_of_names hi hc ht
  | methodHandle kind reference =>
    intro other m hother hm
    exact Pool.methodHandle_of_get h ((hanswers other reference hother).member hm)
  | methodType descriptor =>
    obtain ⟨t, ht, hi⟩ := h
    exact Pool.methodType_of_get hi ht.get
  | invokeDynamic bootstrap name descriptor =>
    obtain ⟨t, ht, hi⟩ := h
    exact Pool.invokeDynamic_of_names hi ht

end Stored

end Call

-- The answers of a sequence of calls, one for each.
theorem adds_mapM_run (calls : List Call) : Adds (calls.mapM Call.run) fun p indices =>
    List.Forall₂ (fun call index => call.Stored p index) calls indices := by
  induction calls with
  | nil =>
    rw [List.mapM_nil]
    exact (Adds.pure []).congr fun _ _ => List.forall₂_nil_left_iff
  | cons call calls ih =>
    rw [List.mapM_cons]
    refine (call.adds_run.bind fun _ => ih.bind fun _ => .pure _).congr fun p indices => ?_
    rw [List.forall₂_cons_left_iff]
    simp only [exists_and_left]

-- What a pool says about the answers of the calls that have built it: an index resolves to what its
-- call was given, no matter which calls came before or after, shared calls agree on the index of
-- equal contents, and different contents are at different indices.
theorem answers_valid (calls : List Call) {indices : List UInt16} {pool : Pool}
    (hrun : (calls.mapM Call.run).run .empty = (indices, pool)) (hsize : pool.size < UInt16.size) :
    indices.length = calls.length ∧
    ∀ call index, (call, index) ∈ calls.zip indices →
      call.Resolves (calls.zip indices) pool index ∧
      ¬pool.IsSecondSlot index ∧
      ∀ other index', (other, index') ∈ calls.zip indices →
        (call = other → call.isShared → index = index') ∧ (call ≠ other → index ≠ index') := by
  have hadds := adds_mapM_run calls
  have hspaced : pool.Spaced := by
    have hgrows := (hadds.grows .empty).spaced
    rw [show (calls.mapM Call.run) Pool.empty = (indices, pool) from hrun] at hgrows
    exact hgrows fun k e hk => by simp [Pool.empty] at hk
  have hstored : List.Forall₂ (fun call index => Call.Stored call pool index) calls indices := by
    have hanswer := hadds.answer .empty
    rw [show (calls.mapM Call.run) Pool.empty = (indices, pool) from hrun] at hanswer
    exact hanswer hsize
  have hzip (call : Call) (index : UInt16) (h : (call, index) ∈ calls.zip indices) :
      call.Stored pool index :=
    (List.forall₂_iff_zip.1 hstored).2 h
  refine ⟨hstored.length_eq.symm, fun call index hcall => ?_⟩
  have h := hzip call index hcall
  refine ⟨h.resolves hzip, h.not_isSecondSlot hspaced, fun other index' hother => ?_⟩
  have h' := hzip other index' hother
  constructor
  · rintro rfl hshared
    exact h.index_eq hshared h'
  · rintro hne rfl
    exact hne (h.call_eq h')

-- A wide constant, a class that is asked for twice, and a method handle that is added before the
-- method.
def sampleCalls : List Call :=
  [.long 7, .classRef "a/B", .methodHandle .invokeStatic 9, .methodRef "a/B" "f" "()V",
   .classRef "a/B", .string "a/B", .invokeDynamic 0 "f" "()V"]

theorem answers_valid_sample : ∃ pool,
    (sampleCalls.mapM Call.run).run .empty = ([1, 4, 5, 9, 4, 10, 11], pool) ∧
      pool.size < UInt16.size ∧ pool.loadable 1 = .ok (.long 7) ∧ ¬pool.IsSecondSlot 4 ∧
      pool.methodHandle 5 = .ok ⟨.invokeStatic, "a/B", "f", "()V", false⟩ := by
  have hindices : ((sampleCalls.mapM Call.run).run .empty).1 = [1, 4, 5, 9, 4, 10, 11] := by
    decide +kernel
  have hsize : ((sampleCalls.mapM Call.run).run .empty).2.size < UInt16.size := by decide +kernel
  cases hrun : (sampleCalls.mapM Call.run).run .empty with
  | mk indices pool =>
    rw [hrun] at hindices hsize
    obtain rfl : indices = [1, 4, 5, 9, 4, 10, 11] := hindices
    obtain ⟨-, h⟩ := answers_valid sampleCalls hrun hsize
    obtain ⟨hlong, -⟩ := h (.long 7) 1 (by simp [sampleCalls])
    obtain ⟨-, hclass, -⟩ := h (.classRef "a/B") 4 (by simp [sampleCalls])
    obtain ⟨hhandle, -⟩ := h (.methodHandle .invokeStatic 9) 5 (by simp [sampleCalls])
    have hmethod := hhandle (.methodRef "a/B" "f" "()V") _ (by simp [sampleCalls]) rfl
    exact ⟨pool, rfl, hsize, hlong, hclass, hmethod⟩

end PoolBuilder

end JvmLift
