import PersistedQueries.Schema.Basic

/-!
# Standard types and directives

What every schema has without defining it.

- `Standard.scalars`: the five standard scalars.
- `Standard.introspection`: the types in which a schema describes itself.
- `Standard.types`: all of them.
- `Standard.directives`: the standard directives.
-/

namespace PersistedQueries.Schema.Standard

/-! ## Scalars -/

/-- Texts. -/
def stringType : NamedType where
  name := "String"
  description := some (
    "The `String` scalar type represents textual data, represented as UTF-8 " ++
    "character sequences. The String type is most often used by GraphQL to represent " ++
    "free-form human-readable text.")
  body := .scalar none

/-- Whole numbers of 32 bits. -/
def intType : NamedType where
  name := "Int"
  description := some (
    "The `Int` scalar type represents non-fractional signed whole numeric values. " ++
    "Int can represent values between -(2^31) and 2^31 - 1.")
  body := .scalar none

/-- Doubles. -/
def floatType : NamedType where
  name := "Float"
  description := some (
    "The `Float` scalar type represents signed double-precision fractional values as " ++
    "specified by [IEEE 754](https:" ++
    "//en.wikipedia.org/wiki/IEEE_floating_point).")
  body := .scalar none

/-- Truth values. -/
def booleanType : NamedType where
  name := "Boolean"
  description := some (
    "The `Boolean` scalar type represents `true` or `false`.")
  body := .scalar none

/-- Identifiers. -/
def idType : NamedType where
  name := "ID"
  description := some (
    "The `ID` scalar type represents a unique identifier, often used to refetch an " ++
    "object or as key for a cache. The ID type appears in a JSON response as a " ++
    "String; however, it is not intended to be human-readable. When expected as an " ++
    "input type, any string (such as `\"4\"`) or integer (such as `4`) input value " ++
    "will be accepted as an ID.")
  body := .scalar none

/-- The standard scalars. -/
def scalars : List NamedType := [stringType, intType, floatType, booleanType, idType]

/-! ## Introspection -/

/-- The type of a schema. -/
def schemaType : NamedType where
  name := "__Schema"
  description := some (
    "A GraphQL Schema defines the capabilities of a GraphQL server. It exposes all " ++
    "available types and directives on the server, as well as the entry points for " ++
    "query, mutation, and subscription operations.")
  body := .object [] [
    { name := "description"
      type := .named "String" },
    { name := "types"
      description := some (
        "A list of all types supported by this server.")
      type := .nonNull (.list (.nonNull (.named "__Type"))) },
    { name := "queryType"
      description := some (
        "The type that query operations will be rooted at.")
      type := .nonNull (.named "__Type") },
    { name := "mutationType"
      description := some (
        "If this server supports mutation, the type that mutation operations will be " ++
        "rooted at.")
      type := .named "__Type" },
    { name := "subscriptionType"
      description := some (
        "If this server supports subscription, the type that subscription operations " ++
        "will be rooted at.")
      type := .named "__Type" },
    { name := "directives"
      description := some (
        "A list of all directives supported by this server.")
      arguments := [
        { name := "includeDeprecated"
          type := .nonNull (.named "Boolean")
          default := some (.bool false) }]
      type := .nonNull (.list (.nonNull (.named "__Directive"))) }]

/-- The type of a directive. -/
def directiveType : NamedType where
  name := "__Directive"
  description := some (
    "A Directive provides a way to describe alternate runtime execution and type " ++
    "validation behavior in a GraphQL document.\n\nIn some cases, you need to " ++
    "provide options to alter GraphQL's execution behavior in ways field arguments " ++
    "will not suffice, such as conditionally including or skipping a field. " ++
    "Directives provide this by describing additional information to the executor.")
  body := .object [] [
    { name := "name"
      type := .nonNull (.named "String") },
    { name := "description"
      type := .named "String" },
    { name := "isRepeatable"
      type := .nonNull (.named "Boolean") },
    { name := "locations"
      type := .nonNull (.list (.nonNull (.named "__DirectiveLocation"))) },
    { name := "args"
      arguments := [
        { name := "includeDeprecated"
          type := .named "Boolean"
          default := some (.bool false) }]
      type := .nonNull (.list (.nonNull (.named "__InputValue"))) },
    { name := "isDeprecated"
      type := .nonNull (.named "Boolean") },
    { name := "deprecationReason"
      type := .named "String" }]

/-- The places where a directive may stand. -/
def directiveLocationType : NamedType where
  name := "__DirectiveLocation"
  description := some (
    "A Directive can be adjacent to many parts of the GraphQL language, a " ++
    "__DirectiveLocation describes one such possible adjacencies.")
  body := .enum [
    { name := "QUERY"
      description := some (
        "Location adjacent to a query operation.") },
    { name := "MUTATION"
      description := some (
        "Location adjacent to a mutation operation.") },
    { name := "SUBSCRIPTION"
      description := some (
        "Location adjacent to a subscription operation.") },
    { name := "FIELD"
      description := some (
        "Location adjacent to a field.") },
    { name := "FRAGMENT_DEFINITION"
      description := some (
        "Location adjacent to a fragment definition.") },
    { name := "FRAGMENT_SPREAD"
      description := some (
        "Location adjacent to a fragment spread.") },
    { name := "INLINE_FRAGMENT"
      description := some (
        "Location adjacent to an inline fragment.") },
    { name := "VARIABLE_DEFINITION"
      description := some (
        "Location adjacent to a variable definition.") },
    { name := "SCHEMA"
      description := some (
        "Location adjacent to a schema definition.") },
    { name := "SCALAR"
      description := some (
        "Location adjacent to a scalar definition.") },
    { name := "OBJECT"
      description := some (
        "Location adjacent to an object type definition.") },
    { name := "FIELD_DEFINITION"
      description := some (
        "Location adjacent to a field definition.") },
    { name := "ARGUMENT_DEFINITION"
      description := some (
        "Location adjacent to an argument definition.") },
    { name := "INTERFACE"
      description := some (
        "Location adjacent to an interface definition.") },
    { name := "UNION"
      description := some (
        "Location adjacent to a union definition.") },
    { name := "ENUM"
      description := some (
        "Location adjacent to an enum definition.") },
    { name := "ENUM_VALUE"
      description := some (
        "Location adjacent to an enum value definition.") },
    { name := "INPUT_OBJECT"
      description := some (
        "Location adjacent to an input object type definition.") },
    { name := "INPUT_FIELD_DEFINITION"
      description := some (
        "Location adjacent to an input object field definition.") },
    { name := "DIRECTIVE_DEFINITION"
      description := some (
        "Location adjacent to a directive definition.") }]

/-- The type of a type. -/
def typeType : NamedType where
  name := "__Type"
  description := some (
    "The fundamental unit of any GraphQL Schema is the type. There are many kinds of " ++
    "types in GraphQL as represented by the `__TypeKind` enum.\n\nDepending on the " ++
    "kind of a type, certain fields describe information about that type. Scalar " ++
    "types provide no information beyond a name, description and optional " ++
    "`specifiedByURL`, while Enum types provide their values. Object and Interface " ++
    "types provide the fields they describe. Abstract types, Union and Interface, " ++
    "provide the Object types possible at runtime. List and NonNull types compose " ++
    "other types.")
  body := .object [] [
    { name := "kind"
      type := .nonNull (.named "__TypeKind") },
    { name := "name"
      type := .named "String" },
    { name := "description"
      type := .named "String" },
    { name := "specifiedByURL"
      type := .named "String" },
    { name := "fields"
      arguments := [
        { name := "includeDeprecated"
          type := .named "Boolean"
          default := some (.bool false) }]
      type := .list (.nonNull (.named "__Field")) },
    { name := "interfaces"
      type := .list (.nonNull (.named "__Type")) },
    { name := "possibleTypes"
      type := .list (.nonNull (.named "__Type")) },
    { name := "enumValues"
      arguments := [
        { name := "includeDeprecated"
          type := .named "Boolean"
          default := some (.bool false) }]
      type := .list (.nonNull (.named "__EnumValue")) },
    { name := "inputFields"
      arguments := [
        { name := "includeDeprecated"
          type := .named "Boolean"
          default := some (.bool false) }]
      type := .list (.nonNull (.named "__InputValue")) },
    { name := "ofType"
      type := .named "__Type" },
    { name := "isOneOf"
      type := .named "Boolean" }]

/-- The type of a field. -/
def fieldType : NamedType where
  name := "__Field"
  description := some (
    "Object and Interface types are described by a list of Fields, each of which has " ++
    "a name, potentially a list of arguments, and a return type.")
  body := .object [] [
    { name := "name"
      type := .nonNull (.named "String") },
    { name := "description"
      type := .named "String" },
    { name := "args"
      arguments := [
        { name := "includeDeprecated"
          type := .named "Boolean"
          default := some (.bool false) }]
      type := .nonNull (.list (.nonNull (.named "__InputValue"))) },
    { name := "type"
      type := .nonNull (.named "__Type") },
    { name := "isDeprecated"
      type := .nonNull (.named "Boolean") },
    { name := "deprecationReason"
      type := .named "String" }]

/-- The type of an argument or a field of an input type. -/
def inputValueType : NamedType where
  name := "__InputValue"
  description := some (
    "Arguments provided to Fields or Directives and the input fields of an " ++
    "InputObject are represented as Input Values which describe their type and " ++
    "optionally a default value.")
  body := .object [] [
    { name := "name"
      type := .nonNull (.named "String") },
    { name := "description"
      type := .named "String" },
    { name := "type"
      type := .nonNull (.named "__Type") },
    { name := "defaultValue"
      description := some (
        "A GraphQL-formatted string representing the default value for this input value.")
      type := .named "String" },
    { name := "isDeprecated"
      type := .nonNull (.named "Boolean") },
    { name := "deprecationReason"
      type := .named "String" }]

/-- The type of a value of an enumeration. -/
def enumValueType : NamedType where
  name := "__EnumValue"
  description := some (
    "One possible value for a given Enum. Enum values are unique values, not a " ++
    "placeholder for a string or numeric value. However an Enum value is returned in " ++
    "a JSON response as a string.")
  body := .object [] [
    { name := "name"
      type := .nonNull (.named "String") },
    { name := "description"
      type := .named "String" },
    { name := "isDeprecated"
      type := .nonNull (.named "Boolean") },
    { name := "deprecationReason"
      type := .named "String" }]

/-- The kinds of types. -/
def typeKindType : NamedType where
  name := "__TypeKind"
  description := some (
    "An enum describing what kind of type a given `__Type` is.")
  body := .enum [
    { name := "SCALAR"
      description := some (
        "Indicates this type is a scalar.") },
    { name := "OBJECT"
      description := some (
        "Indicates this type is an object. `fields` and `interfaces` are valid fields.") },
    { name := "INTERFACE"
      description := some (
        "Indicates this type is an interface. `fields`, `interfaces`, and " ++
        "`possibleTypes` are valid fields.") },
    { name := "UNION"
      description := some (
        "Indicates this type is a union. `possibleTypes` is a valid field.") },
    { name := "ENUM"
      description := some (
        "Indicates this type is an enum. `enumValues` is a valid field.") },
    { name := "INPUT_OBJECT"
      description := some (
        "Indicates this type is an input object. `inputFields` is a valid field.") },
    { name := "LIST"
      description := some (
        "Indicates this type is a list. `ofType` is a valid field.") },
    { name := "NON_NULL"
      description := some (
        "Indicates this type is a non-null. `ofType` is a valid field.") }]

/-- The types in which a schema describes itself. -/
def introspection : List NamedType :=
  [schemaType, directiveType, directiveLocationType, typeType, fieldType, inputValueType,
    enumValueType, typeKindType]

/-- The types that every schema may refer to. -/
def types : List NamedType := scalars ++ introspection

/-- The standard type of a name. -/
def type? (name : String) : Option NamedType := types.find? (·.name = name)

/-! ## Directives -/

/-- Include a field or fragment on a condition. -/
def includeDirective : DirectiveType where
  name := "include"
  description := some (
    "Directs the executor to include this field or fragment only when the `if` " ++
    "argument is true.")
  arguments := [
    { name := "if"
      description := some (
        "Included when true.")
      type := .nonNull (.named "Boolean") }]
  locations := ["FIELD", "FRAGMENT_SPREAD", "INLINE_FRAGMENT"]

/-- Skip a field or fragment on a condition. -/
def skipDirective : DirectiveType where
  name := "skip"
  description := some (
    "Directs the executor to skip this field or fragment when the `if` argument is " ++
    "true.")
  arguments := [
    { name := "if"
      description := some (
        "Skipped when true.")
      type := .nonNull (.named "Boolean") }]
  locations := ["FIELD", "FRAGMENT_SPREAD", "INLINE_FRAGMENT"]

/-- Mark something as deprecated. -/
def deprecatedDirective : DirectiveType where
  name := "deprecated"
  description := some (
    "Marks an element of a GraphQL schema as no longer supported.")
  arguments := [
    { name := "reason"
      description := some (
        "Explains why this element was deprecated, usually also including a suggestion " ++
        "for how to access supported similar data. Formatted using the Markdown syntax, " ++
        "as specified by [CommonMark](https:" ++
        "//commonmark.org/).")
      type := .named "String"
      default := some (.string "No longer supported") }]
  locations := ["FIELD_DEFINITION", "ARGUMENT_DEFINITION", "INPUT_FIELD_DEFINITION",
    "ENUM_VALUE", "DIRECTIVE_DEFINITION"]

/-- Say where a scalar is specified. -/
def specifiedByDirective : DirectiveType where
  name := "specifiedBy"
  description := some (
    "Exposes a URL that specifies the behavior of this scalar.")
  arguments := [
    { name := "url"
      description := some (
        "The URL that specifies the behavior of this scalar.")
      type := .nonNull (.named "String") }]
  locations := ["SCALAR"]

/-- Require exactly one field of an input type. -/
def oneOfDirective : DirectiveType where
  name := "oneOf"
  description := some (
    "Indicates an Input Object is a OneOf Input Object.")
  locations := ["INPUT_OBJECT"]

/-- The standard directives. -/
def directives : List DirectiveType :=
  [includeDirective, skipDirective, deprecatedDirective, specifiedByDirective, oneOfDirective]

end PersistedQueries.Schema.Standard
