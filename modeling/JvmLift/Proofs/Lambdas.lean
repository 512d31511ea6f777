import JvmLift.Proofs.CallSites
import JvmLift.Proofs.Descriptor.Method
import JvmLift.Proofs.Parameters
import JvmLift.Proofs.Written.Core

namespace JvmLift

open Instruction.CallSite

namespace Method

variable {m : Method}

-- A method that is put together has the signature that its descriptor says.
theorem ofDescriptor?_of_ofSource {source : MethodSource} (h : ofSource source = .ok m) :
    MethodDescriptor.ofDescriptor? m.descriptor = some m.signature := by
  rw [ofSource, MethodDescriptor.ofDescriptor] at h
  cases hread : MethodDescriptor.ofDescriptor? source.descriptor with
  | none =>
    rw [hread] at h
    cases h
  | some signature =>
    rw [hread] at h
    cases h
    exact hread

end Method

theorem MethodDescriptor.ofDescriptor?_of_ofDescriptor {text : String} {d : MethodDescriptor}
    (h : ofDescriptor text = .ok d) : ofDescriptor? text = some d := by
  rw [ofDescriptor] at h
  split at h
  · next hread =>
    cases h
    exact hread
  · cases h

namespace Render

variable {ctx : Context} {m : Method}

-- What is found under a descriptor has it.
theorem Context.descriptor_of_method? {owner : JvmType} {name descriptor : String}
    (h : ctx.method? owner name descriptor = some m) : m.descriptor = descriptor := by
  simp only [method?, Option.bind_eq_bind, Option.bind_eq_some_iff] at h
  obtain ⟨resolver, -, className, -, c, -, hfind⟩ := h
  have hsame := List.find?_some hfind
  simp only [Bool.and_eq_true, decide_eq_true_eq] at hsame
  exact hsame.2

-- The method behind a lambda has the signature that the lambda names.
theorem Context.signature_of_method? {source : MethodSource} {owner : JvmType}
    {name text : String} {signature : MethodDescriptor}
    (hread : MethodDescriptor.ofDescriptor text = .ok signature)
    (h : ctx.method? owner name signature.descriptor = some m)
    (hsource : Method.ofSource source = .ok m) : m.signature = signature := by
  have hm := Method.ofDescriptor?_of_ofSource hsource
  have hsame := MethodDescriptor.ofDescriptor?_descriptor
    (MethodDescriptor.ofDescriptor?_of_ofDescriptor hread)
  rw [ctx.descriptor_of_method? h, hsame] at hm
  exact (Option.some.inj hm).symm

end Render

namespace Instruction.CallSite

theorem localVars_of_mapM {es : List Element} {vars : List LocalRef}
    (h : es.mapM capturedVariable = .ok vars) : es.map Element.localVar? = vars.map some := by
  induction es generalizing vars with
  | nil =>
    cases h
    rfl
  | cons e es ih =>
    rw [List.mapM_cons, capturedVariable] at h
    cases he : e.localVar? with
    | none =>
      rw [he] at h
      cases h
    | some v =>
      cases hes : es.mapM capturedVariable with
      | error fault =>
        rw [he, hes] at h
        cases h
      | ok rest =>
        rw [he, hes] at h
        cases h
        rw [List.map_cons, List.map_cons, he, ih hes]

open Render

-- A lambda encloses the variables that its call site passes in front of the arguments of the
-- interface, which leave the stack with the receiver below them. Whatever can be written for it
-- starts with the names of the other parameters of the method behind it, in their order.
theorem lambda_names_parameters {s t : State} {index functional backing instantiated : UInt16}
    {site : CallSiteRef} {signature interface backingSignature : MethodDescriptor}
    {factory handle : HandleRef} {ctx : Context} {m : Method} {source : MethodSource}
    {params : List LocalVariable}
    (hlinks : s.method.Links index site signature factory [functional, backing, instantiated])
    (hfactory : factory.member.owner ≠ concatenationFactory)
    (hbacks : s.method.Backs functional backing interface handle backingSignature)
    (h : exec (invoke index) s = (.ok ⟨⟩, t)) (hbody : "lambda$".isPrefixOf handle.member.name)
    (hcount : interface.parameters.length ≤ backingSignature.parameters.length)
    (hmethod : ctx.method? (.reference handle.member.owner) handle.member.name
      backingSignature.descriptor = some m)
    (hsource : Method.ofSource source = .ok m) (hparams : m.Declares params) :
    ∃ (captured below : List Entry) (receiver : Option Entry) (enclosed : List LocalRef),
      let l := madeLambda site signature interface handle backingSignature receiver enclosed
      s.stack = captured ++ receiver.toList ++ below ∧
      t = (s.leaving below).push (.ofShape (.lambda l)) ∧
      captured.length + receiver.toList.length = signature.parameters.length ∧
      (captured.reverse.map fun e => e.element.localVar?) = enclosed.map some ∧
      enclosed.length = backingSignature.parameters.length - interface.parameters.length ∧
      params.length = backingSignature.parameters.length ∧
      ∀ depth stamp text, Render.Registry.core.render depth ctx ⟨.lambda l, stamp⟩ = .ok text →
        ∃ body, text = argumentList
          ((params.drop (params.length - interface.parameters.length)).map (·.name)) ++ " ->" ++
            body := by
  rw [exec_invoke_of_links hlinks, link.eq_def, if_neg hfactory] at h
  obtain ⟨interface', handle', backingSignature', hbacks', captured, below, receiver, enclosed,
    hstack, hextra, hcaptured, henclosed, rfl⟩ := capture_eq_ok h
  obtain ⟨rfl, rfl, rfl⟩ := hbacks'.unique hbacks
  have hlen := length_of_mapM henclosed
  rw [List.length_map, List.length_reverse, hextra] at hlen
  have hvars := localVars_of_mapM henclosed
  rw [List.map_map] at hvars
  have hsignature := ctx.signature_of_method? hbacks.described hmethod hsource
  have hparamsLen := hsignature ▸ hparams.length_eq
  refine ⟨captured, below, receiver, enclosed, hstack, rfl, hcaptured, hvars, hlen, hparamsLen, ?_⟩
  intro depth stamp text htext
  obtain ⟨body, hhead⟩ := Registry.exists_of_render_lambda
    (l := madeLambda site signature interface' handle' backingSignature' receiver enclosed)
    hbody hmethod htext
  rw [hparams.parameters_eq, madeLambda, hlen, ← hparamsLen] at hhead
  exact ⟨body, hhead⟩

section Examples

-- A method of an object with a call site that makes a consumer of a method of the same object, which
-- takes a long in front of what is consumed.
def consuming : Method :=
  { className := "A", name := "m", descriptor := "(J)V", signature := ⟨[.long], .void⟩
    code := [Opcode.aload, 0, Opcode.lload, 1, Opcode.invokedynamic, 0, 20, 0, 0, Opcode.areturn]
    pool := ⟨#[.utf8 "java/lang/invoke/LambdaMetafactory", .classRef 1, .utf8 "metafactory",
      .utf8 "()V", .nameAndType 3 4, .methodRef 2 5, .methodHandle 6 6,
      .utf8 "(Ljava/lang/Object;)V", .methodType 8, .utf8 "A", .classRef 10, .utf8 "lambda$m$0",
      .utf8 "(JLjava/lang/Object;)V", .nameAndType 12 13, .methodRef 11 14, .methodHandle 7 15,
      .utf8 "accept", .utf8 "(LA;J)Ljava/util/function/Consumer;", .nameAndType 17 18,
      .invokeDynamic 0 19]⟩
    bootstrapMethods := [⟨7, [9, 16, 9]⟩] }

-- The object and the long wait for the call site.
def consumingState : State :=
  ((State.start consuming (.ofCode consuming.code)).push
    (.ofShape (.localVar ⟨"this", .reference "A", 0⟩))).push (.ofShape (.localVar ⟨"x", .long, 1⟩))

-- The body of the lambda. Its variables are not listed by their slots, and one of them is no
-- parameter.
def consumedSource : MethodSource :=
  { className := "A", name := "lambda$m$0", descriptor := "(JLjava/lang/Object;)V", flags := 0x1002
    code := [Opcode.returnVoid]
    locals := [⟨"o", .object, 3, 0, 2⟩, ⟨"later", .int, 4, 1, 1⟩, ⟨"x", .long, 1, 0, 2⟩,
      ⟨"this", .reference "A", 0, 0, 2⟩] }

def consumed : Method :=
  { consumedSource with signature := ⟨[.long, .object], .void⟩ }

def consumingContext : Context :=
  { resolver := some ⟨[{
      name := "A", superName := none, sourceFile := none, flags := 0, pool := .empty
      bootstrapMethods := [], methods := [consumed] }]⟩ }

def consumingSite : CallSiteRef :=
  ⟨0, "accept", "(LA;J)Ljava/util/function/Consumer;"⟩

def consumingSignature : MethodDescriptor :=
  ⟨[.reference "A", .long], .reference "java/util/function/Consumer"⟩

def consumedHandle : HandleRef :=
  ⟨.invokeSpecial, ⟨"A", "lambda$m$0", "(JLjava/lang/Object;)V", false⟩⟩

theorem links_consuming : consuming.Links 20 consumingSite consumingSignature
    ⟨.invokeStatic, ⟨"java/lang/invoke/LambdaMetafactory", "metafactory", "()V", false⟩⟩
    [9, 16, 9] :=
  ⟨by decide +kernel, by decide +kernel, 7, rfl, by decide +kernel⟩

theorem backs_consuming :
    consuming.Backs 9 16 ⟨[.object], .void⟩ consumedHandle ⟨[.long, .object], .void⟩ :=
  ⟨⟨"(Ljava/lang/Object;)V", by decide +kernel, by decide +kernel⟩, by decide +kernel,
    by decide +kernel⟩

theorem declares_consumed : consumed.Declares
    [⟨"x", .long, 1, 0, 2⟩, ⟨"o", .object, 3, 0, 2⟩] := by
  refine ⟨by decide, rfl, some ⟨"this", .reference "A", 0, 0, 2⟩, rfl, by simp, ?_⟩
  decide +kernel

theorem method?_consumingContext : consumingContext.method? (.reference "A") "lambda$m$0"
    (MethodDescriptor.mk [.long, .object] .void).descriptor = some consumed := by
  decide +kernel

theorem exists_decompile_consumed :
    ∃ body, consumed.decompile = .ok body ∧ bodyStatements body = [] := by
  have hempty : (consumed.decompile.toOption.map fun body => (bodyStatements body).isEmpty) =
      some true := by decide +kernel
  obtain ⟨body, hbody, hempty⟩ := exists_eq_ok_of_toOption hempty
  exact ⟨body, hbody, List.isEmpty_iff.1 hempty⟩

theorem lambda_names_parameters_consumer :
    ∃ (t : State) (l : Lambda Element) (receiver : Option Entry) (captured : List Entry),
      exec (invoke 20) consumingState = (.ok ⟨⟩, t) ∧
      t = (consumingState.leaving []).push (.ofShape (.lambda l)) ∧
      consumingState.stack = captured ++ receiver.toList ∧ captured.length = 1 ∧
      l.enclosed.length = 1 ∧
      Render.Registry.core.render 1 consumingContext ⟨.lambda l, {}⟩ = .ok "(o) -> \x7b\x7d" ∧
      ∃ body, "(o) -> \x7b\x7d" = argumentList ["o"] ++ " ->" ++ body := by
  have hsource : Method.ofSource consumedSource = .ok consumed := by decide +kernel
  have hbacking : "lambda$".isPrefixOf "lambda$m$0" := by decide +kernel
  have hok : (exec (invoke 20) consumingState).1.isOk := by decide +kernel
  rcases hexec : exec (invoke 20) consumingState with ⟨fault | ⟨⟨⟩⟩, t⟩
  · rw [hexec] at hok
    cases hok
  · obtain ⟨captured, below, receiver, enclosed, hstack, ht, hcaptured, hvars, hlen, -, hhead⟩ :=
      lambda_names_parameters links_consuming (by decide) backs_consuming hexec hbacking (by decide)
        method?_consumingContext hsource declares_consumed
    have hone : captured.length = 1 := by
      have hvarsLen := congrArg List.length hvars
      rw [List.length_map, List.length_reverse, List.length_map, hlen] at hvarsLen
      exact hvarsLen
    have hbelow : below = [] := by
      have hstackLen : 2 = _ := congrArg List.length hstack
      rw [List.length_append, List.length_append, hcaptured] at hstackLen
      exact List.eq_nil_of_length_eq_zero (Nat.add_left_cancel hstackLen.symm)
    obtain ⟨body, hbody, hempty⟩ := exists_decompile_consumed
    let l := madeLambda consumingSite consumingSignature ⟨[.object], .void⟩ consumedHandle
      ⟨[.long, .object], .void⟩ receiver enclosed
    have hrender := (Render.Registry.render_lambda (l := l) hbacking
      method?_consumingContext hbody 1 {}).1 hempty
    rw [declares_consumed.parameters_eq, show l.enclosed.length = 1 from hlen] at hrender
    rw [hbelow, List.append_nil] at hstack
    exact ⟨t, l, receiver, captured, rfl, hbelow ▸ ht, hstack, hone, hlen, hrender,
      hhead 1 {} _ hrender⟩

end Examples

end Instruction.CallSite

end JvmLift
