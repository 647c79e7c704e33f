/-!
# Property keys

The closed set of keys under which a node may carry extra information. Keys are numbered from one in
the order of the constructors, and diagnostics print them by name.
-/

namespace SyntaxForest

/-- What a property says about its node. -/
inductive PropertyKey
  | jsdocInfo | varArgsName | incrDecr | quoted | optArgName | synthetic | addedBlock | sourceName
  | sideEffectFlags | isConstantName | isNamespace | directives | directEval | freeCall
  | sourceFile | inputId | changeTime | reflectedObject | staticMember | generatorFn | arrowFn
  | asyncFn | yieldAll | exportDefault | exportAllFrom | isConstantVar | generatorMarker
  | generatorSafe | computedPropMethod | computedPropGetter | computedPropSetter
  | computedPropVariable | constantPropertyDef | declaredTypeExpr | typeBeforeCast | declaredType
  | genericTypeList | implementsList | constructSignature | accessModifier | nonIndexable
  | parseResults | googModule | featureSet | isModuleName | wasPreviouslyProvided | isClass
  | transpiled | deleted | moduleAlias | isUnusedParameter | moduleExport | isShorthandProperty
  | startOfOptChain | trailingComma | length
  deriving DecidableEq, Repr

namespace PropertyKey

/-- The number of a key; sorted listings ascend by it. -/
def id (key : PropertyKey) : Nat := key.ctorIdx + 1

/-- The name that diagnostics print. -/
def name : PropertyKey → String
  | .jsdocInfo => "jsdoc_info"
  | .varArgsName => "var_args_name"
  | .incrDecr => "incrdecr"
  | .quoted => "quoted"
  | .optArgName => "opt_arg"
  | .synthetic => "synthetic"
  | .addedBlock => "added_block"
  | .sourceName => "originalname"
  | .sideEffectFlags => "side_effect_flags"
  | .isConstantName => "is_constant_name"
  | .isNamespace => "is_namespace"
  | .directives => "directives"
  | .directEval => "direct_eval"
  | .freeCall => "free_call"
  | .sourceFile => "source_file"
  | .inputId => "input_id"
  | .changeTime => "change_time"
  | .reflectedObject => "reflected_object"
  | .staticMember => "static_member"
  | .generatorFn => "generator_fn"
  | .arrowFn => "arrow_fn"
  | .asyncFn => "async_fn"
  | .yieldAll => "yield_all"
  | .exportDefault => "export_default"
  | .exportAllFrom => "export_all_from"
  | .isConstantVar => "is_constant_var"
  | .generatorMarker => "is_generator_marker"
  | .generatorSafe => "is_generator_safe"
  | .computedPropMethod => "computed_prop_method"
  | .computedPropGetter => "computed_prop_getter"
  | .computedPropSetter => "computed_prop_setter"
  | .computedPropVariable => "computed_prop_variable"
  | .constantPropertyDef => "constant_property_def"
  | .declaredTypeExpr => "declared_type_expr"
  | .typeBeforeCast => "type_before_cast"
  | .declaredType => "declared_type"
  | .genericTypeList => "generic_type_list"
  | .implementsList => "implements"
  | .constructSignature => "construct_signature"
  | .accessModifier => "access_modifier"
  | .nonIndexable => "non_indexable"
  | .parseResults => "parse_results"
  | .googModule => "goog_module"
  | .featureSet => "feature_set"
  | .isModuleName => "is_module_name"
  | .wasPreviouslyProvided => "was_previously_provided"
  | .isClass => "is_class"
  | .transpiled => "transpiled"
  | .deleted => "deleted"
  | .moduleAlias => "module_alias"
  | .isUnusedParameter => "is_unused_parameter"
  | .moduleExport => "module_export"
  | .isShorthandProperty => "is_shorthand_property"
  | .startOfOptChain => "start_of_opt_chain"
  | .trailingComma => "trailing_comma"
  | .length => "length"

/-- Every key, by ascending number. -/
def all : List PropertyKey :=
  [.jsdocInfo, .varArgsName, .incrDecr, .quoted, .optArgName, .synthetic, .addedBlock,
   .sourceName, .sideEffectFlags, .isConstantName, .isNamespace, .directives, .directEval,
   .freeCall, .sourceFile, .inputId, .changeTime, .reflectedObject, .staticMember, .generatorFn,
   .arrowFn, .asyncFn, .yieldAll, .exportDefault, .exportAllFrom, .isConstantVar, .generatorMarker,
   .generatorSafe, .computedPropMethod, .computedPropGetter, .computedPropSetter,
   .computedPropVariable, .constantPropertyDef, .declaredTypeExpr, .typeBeforeCast, .declaredType,
   .genericTypeList, .implementsList, .constructSignature, .accessModifier, .nonIndexable,
   .parseResults, .googModule, .featureSet, .isModuleName, .wasPreviouslyProvided, .isClass,
   .transpiled, .deleted, .moduleAlias, .isUnusedParameter, .moduleExport, .isShorthandProperty,
   .startOfOptChain, .trailingComma, .length]

/-- The key that prints as `text`. -/
def ofName? (text : String) : Option PropertyKey := all.find? (·.name == text)

instance : ToString PropertyKey := ⟨name⟩

end PropertyKey

end SyntaxForest
