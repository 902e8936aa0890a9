import PrSearch.GhCli.Constraints

/-! # The only builder of argv

The path of the definition, the repository, the options in the order of the definition and the JSON
fields. No text of a user goes in as it came.
-/
namespace PrSearch.GhCli

open Query

def repoArgument (context : GhExecutionContext) : Text :=
  context.host ++ '/' :: context.repository.owner ++ '/' :: context.repository.name

/-- `String(value)`, for a value that is no array. -/
def stringOf : OptionValue → Option Text
  | .text text => some text
  | .number number => some (renderNumber number)
  | .bool value => some (if value then "true".toList else "false".toList)
  | .fields _ => none

/-- What one option adds. -/
def optionArguments (entries : List (Text × OptionValue)) (option : GhOption) : Except Text (List Text) :=
  if option.isJsonFields then .ok []
  else
    match entries.lookup option.flag with
    | none => .ok []
    | some value =>
        if option.isBool then .ok (if value = .bool true then [option.flag] else [])
        else
          match stringOf value with
          | none => .error (option.flag ++ "에 배열 값이 왔다".toList)
          | some text => .ok [option.flag, text]

def allArguments (entries : List (Text × OptionValue)) : List GhOption → Except Text (List Text)
  | [] => .ok []
  | option :: rest =>
      match optionArguments entries option, allArguments entries rest with
      | .error message, _ => .error message
      | .ok _, .error message => .error message
      | .ok arguments, .ok others => .ok (arguments ++ others)

def jsonArguments (json : Option GhOption) (fields : List Text) : List Text :=
  match json with
  | some option => if fields.length > 0 then [option.flag, joinWith [','] fields] else []
  | none => []

/-- `[\x00-\x1f\x7f]` -/
def isControlChar (c : Char) : Bool := c.toNat < 0x20 || c.toNat == 0x7f

def buildArgv (definition : GhCapabilityDefinition) (invocation : GhNormalizedInvocation)
    (context : GhExecutionContext) : Except Text (List Text) :=
  if definition.id ≠ invocation.capabilityId then
    .error ("capability 불일치: 정의 ".toList ++ definition.id ++ ", invocation ".toList ++ invocation.capabilityId)
  else if context.repository ≠ invocation.repository then
    .error "실행 컨텍스트의 저장소가 invocation과 다르다".toList
  else
    match allArguments invocation.options definition.options with
    | .error message => .error message
    | .ok arguments =>
        let argv := definition.path ++ ["--repo".toList, repoArgument context] ++ arguments
          ++ jsonArguments (jsonOption definition) invocation.jsonFields
        if argv.any (·.any isControlChar) then .error "argv에 제어 문자가 있다".toList
        else .ok argv

end PrSearch.GhCli
