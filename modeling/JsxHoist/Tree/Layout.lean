import JsxHoist.Tree.Basic

/-!
# The layout of trees

Which fields of a node hold trees, and in which order these are visited. The order is that of the
tables, which need not be the order of the source text: a loop with its test at the end has the
test visited before the body, and a class its body before the class that it extends.
-/

namespace JsxHoist

namespace Layout

/-- Imports and exports. -/
def moduleItems : List (String × List String) :=
  [("ExportDefaultExpression", ["expression"]),
    ("ExportDeclaration", ["declaration"]),
    ("ImportDeclaration", ["specifiers", "source", "with"]),
    ("ExportAllDeclaration", ["source", "with"]),
    ("ExportNamedDeclaration", ["specifiers", "source", "with"]),
    ("ExportDefaultDeclaration", ["decl"]),
    ("ImportDefaultSpecifier", ["local"]),
    ("ImportNamespaceSpecifier", ["local"]),
    ("ImportSpecifier", ["local", "imported"]),
    ("ExportNamespaceSpecifier", ["name"]),
    ("ExportDefaultSpecifier", ["exported"]),
    ("ExportSpecifier", ["orig", "exported"])]

/-- JSX. -/
def jsx : List (String × List String) :=
  [("JSXMemberExpression", ["object", "property"]),
    ("JSXNamespacedName", ["namespace", "name"]),
    ("JSXExpressionContainer", ["expression"]),
    ("JSXSpreadChild", ["expression"]),
    ("JSXOpeningElement", ["name", "attributes", "typeArguments"]),
    ("JSXClosingElement", ["name"]),
    ("JSXAttribute", ["name", "value"]),
    ("JSXElement", ["opening", "children", "closing"]),
    ("JSXFragment", ["opening", "children", "closing"])]

/-- Type syntax and the declarations that only it has. -/
def types : List (String × List String) :=
  [("TsTypeAnnotation", ["typeAnnotation"]),
    ("TsTypeParameterDeclaration", ["parameters"]),
    ("TsTypeParameter", ["name", "constraint", "default"]),
    ("TsTypeParameterInstantiation", ["params"]),
    ("TsParameterProperty", ["decorators", "param"]),
    ("TsQualifiedName", ["left", "right"]),
    ("TsCallSignatureDeclaration", ["params", "typeAnnotation", "typeParams"]),
    ("TsConstructSignatureDeclaration", ["params", "typeAnnotation", "typeParams"]),
    ("TsPropertySignature", ["key", "typeAnnotation"]),
    ("TsGetterSignature", ["key", "typeAnnotation"]),
    ("TsSetterSignature", ["key", "param"]),
    ("TsMethodSignature", ["key", "params", "typeAnn", "typeParams"]),
    ("TsIndexSignature", ["params", "typeAnnotation"]),
    ("TsFunctionType", ["params", "typeParams", "typeAnnotation"]),
    ("TsConstructorType", ["params", "typeParams", "typeAnnotation"]),
    ("TsTypeReference", ["typeName", "typeParams"]),
    ("TsTypePredicate", ["paramName", "typeAnnotation"]),
    ("TsTypeQuery", ["exprName", "typeArguments"]),
    ("TsImportCallOptions", ["with"]),
    ("TsImportType", ["argument", "qualifier", "typeArguments", "attributes"]),
    ("TsTypeLiteral", ["members"]),
    ("TsArrayType", ["elemType"]),
    ("TsTupleType", ["elemTypes"]),
    ("TsTupleElement", ["label", "ty"]),
    ("TsOptionalType", ["typeAnnotation"]),
    ("TsRestType", ["typeAnnotation"]),
    ("TsUnionType", ["types"]),
    ("TsIntersectionType", ["types"]),
    ("TsConditionalType", ["checkType", "extendsType", "trueType", "falseType"]),
    ("TsInferType", ["typeParam"]),
    ("TsParenthesizedType", ["typeAnnotation"]),
    ("TsTypeOperator", ["typeAnnotation"]),
    ("TsIndexedAccessType", ["objectType", "indexType"]),
    ("TsMappedType", ["typeParam", "nameType", "typeAnnotation"]),
    ("TsLiteralType", ["literal"]),
    ("TsInterfaceDeclaration", ["id", "typeParams", "extends", "body"]),
    ("TsInterfaceBody", ["body"]),
    ("TsExpressionWithTypeArguments", ["expression", "typeArguments"]),
    ("TsTypeAliasDeclaration", ["id", "typeParams", "typeAnnotation"]),
    ("TsEnumDeclaration", ["id", "members"]),
    ("TsEnumMember", ["id", "init"]),
    ("TsModuleDeclaration", ["id", "body"]),
    ("TsModuleBlock", ["body"]),
    ("TsNamespaceDeclaration", ["id", "body"]),
    ("TsImportEqualsDeclaration", ["id", "moduleRef"]),
    ("TsExternalModuleReference", ["expression"]),
    ("TsExportAssignment", ["expression"]),
    ("TsNamespaceExportDeclaration", ["id"]),
    ("TsAsExpression", ["expression", "typeAnnotation"]),
    ("TsTypeAssertion", ["expression", "typeAnnotation"]),
    ("TsNonNullExpression", ["expression"]),
    ("TsSatisfiesExpression", ["expression", "typeAnnotation"]),
    ("TsConstAssertion", ["expression"]),
    ("TsInstantiation", ["expression", "typeArguments"])]

/-- Classes, their members and functions. -/
def classes : List (String × List String) :=
  [("ClassProperty", ["key", "value", "typeAnnotation", "decorators"]),
    ("PrivateProperty", ["key", "value", "typeAnnotation", "decorators"]),
    ("ClassMethod", ["key", "function"]),
    ("PrivateMethod", ["key", "function"]),
    ("Constructor", ["key", "params", "body"]),
    ("Decorator", ["expression"]),
    ("StaticBlock", ["body"]),
    ("AutoAccessor", ["key", "value", "typeAnnotation", "decorators"]),
    ("FunctionDeclaration",
      ["identifier", "params", "decorators", "body",
        "typeParameters", "returnType"]),
    ("ClassDeclaration",
      ["identifier", "decorators", "body", "superClass",
        "typeParams", "superTypeParams", "implements"]),
    ("FunctionExpression",
      ["identifier", "params", "decorators", "body",
        "typeParameters", "returnType"]),
    ("ClassExpression",
      ["identifier", "decorators", "body", "superClass",
        "typeParams", "superTypeParams", "implements"]),
    ("ArrowFunctionExpression", ["params", "body", "typeParameters", "returnType"]),
    ("Parameter", ["decorators", "pat"])]

/-- Statements and variable declarations. -/
def statements : List (String × List String) :=
  [("VariableDeclaration", ["declarations"]),
    ("VariableDeclarator", ["id", "init"]),
    ("UsingDeclaration", ["decls"]),
    ("BlockStatement", ["stmts"]),
    ("ExpressionStatement", ["expression"]),
    ("WithStatement", ["object", "body"]),
    ("ReturnStatement", ["argument"]),
    ("LabeledStatement", ["label", "body"]),
    ("BreakStatement", ["label"]),
    ("ContinueStatement", ["label"]),
    ("IfStatement", ["test", "consequent", "alternate"]),
    ("SwitchStatement", ["discriminant", "cases"]),
    ("ThrowStatement", ["argument"]),
    ("TryStatement", ["block", "handler", "finalizer"]),
    ("WhileStatement", ["test", "body"]),
    ("DoWhileStatement", ["test", "body"]),
    ("ForStatement", ["init", "test", "update", "body"]),
    ("ForInStatement", ["left", "right", "body"]),
    ("ForOfStatement", ["left", "right", "body"]),
    ("SwitchCase", ["test", "consequent"]),
    ("CatchClause", ["param", "body"])]

/-- Patterns and properties. -/
def patterns : List (String × List String) :=
  [("ArrayPattern", ["elements", "typeAnnotation"]),
    ("ObjectPattern", ["properties", "typeAnnotation"]),
    ("AssignmentPattern", ["left", "right"]),
    ("RestElement", ["argument", "typeAnnotation"]),
    ("KeyValuePatternProperty", ["key", "value"]),
    ("AssignmentPatternProperty", ["key", "value"]),
    ("KeyValueProperty", ["key", "value"]),
    ("AssignmentProperty", ["key", "value"]),
    ("GetterProperty", ["key", "typeAnnotation", "body"]),
    ("SetterProperty", ["key", "thisParam", "param", "body"]),
    ("MethodProperty", ["key", "params", "decorators", "body", "typeParameters", "returnType"]),
    ("Computed", ["expression"])]

/-- All other expressions. -/
def expressions : List (String × List String) :=
  [("ArrayExpression", ["elements"]),
    ("ObjectExpression", ["properties"]),
    ("SpreadElement", ["arguments"]),
    ("UnaryExpression", ["argument"]),
    ("UpdateExpression", ["argument"]),
    ("BinaryExpression", ["left", "right"]),
    ("AssignmentExpression", ["left", "right"]),
    ("MemberExpression", ["object", "property"]),
    ("SuperPropExpression", ["obj", "property"]),
    ("ConditionalExpression", ["test", "consequent", "alternate"]),
    ("CallExpression", ["callee", "arguments", "typeArguments"]),
    ("NewExpression", ["callee", "arguments", "typeArguments"]),
    ("SequenceExpression", ["expressions"]),
    ("YieldExpression", ["argument"]),
    ("AwaitExpression", ["argument"]),
    ("TemplateLiteral", ["expressions", "types", "quasis"]),
    ("TaggedTemplateExpression", ["tag", "typeParameters", "template"]),
    ("ParenthesisExpression", ["expression"]),
    ("OptionalChainingExpression", ["base"]),
    ("Identifier", ["typeAnnotation"])]

/-- The fields that hold trees, in visiting order, by the name of the node. A node that is not
named here holds none. -/
def table : List (String × List String) :=
  expressions ++ jsx ++ statements ++ patterns ++ classes ++ moduleItems ++ types

/-- The fields that hold trees in a node without a name: an argument or array item has its
expression, the function of a method all the others. -/
def untypedFields : List String :=
  ["expression", "params", "decorators", "body", "typeParameters", "returnType"]

/-- The fields that hold trees in a node with the given name, or in one without. -/
def childFields : Option String → List String
  | none => untypedFields
  | some name => (table.lookup name).getD []

/-- The slot of a tree in a field; `repeated` if the field holds a list. -/
def slot (name : Option String) (field : String) (repeated : Bool) : Slot :=
  match name, field, repeated with
  | some "JSXElement", "opening", false => .opening
  | some "JSXElement", "children", true => .child
  | some "JSXFragment", "children", true => .child
  | some "JSXOpeningElement", "attributes", true => .attr
  | some "JSXAttribute", "value", false => .attrValue
  | _, _, true => .item field
  | _, _, false => .single field

end Layout

end JsxHoist
